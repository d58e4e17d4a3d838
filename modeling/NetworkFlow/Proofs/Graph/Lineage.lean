import NetworkFlow.Proofs.Graph.HandedOut

/-!
# Whose keys a graph accepts

Graphs are made one after the other, each with an identity of its own, except that a copy keeps the
identity of its original. From then on the two grow apart. What they have in common is the state in
which the copy was made (`shared`), and copies of copies are treated alike.

A key is a number beside an identity. So a graph accepts the keys of its relatives as far as it has
grown itself, and no others. Below the counts of the shared state the number names the same element in
both graphs. Beyond them it names an element that each of the two was given on its own, and nothing
but the order in which they were added relates one to the other: `arc_of_copy` is a run in which the
same key is two different arcs.

## Main results

* `step_cases`: what one step does to the graphs.
* `shared_cases`: relatives, and no other graphs, have an identity in common, and both have grown from
  the shared state.
* `check_handedOut`: what becomes of a key that another graph handed out.
-/

namespace NetworkFlow

/-- The graphs that were made so far, by number, and the identity of the next one. -/
structure Atlas where
  next : GraphId
  graphs : List AnyGraph

/-- What can be done with graphs. They are named by their numbers. -/
inductive AtlasStep where
  | newList
  | newStatic
  /-- A static graph that is built right away. -/
  | ofEnds (nodes : Nat) (pairs : Array Ends)
  | copy (original : Nat)
  | addNode (graph : Nat)
  | addArc (graph : Nat) (tail head : Node)
  | build (graph nodes : Nat) (pairs : Array Ends)

namespace Atlas

/-- No graph was made yet. -/
def empty : Atlas where
  next := ⟨1⟩
  graphs := []

/-- One more graph. -/
def add (a : Atlas) (g : AnyGraph) : Atlas := { a with graphs := a.graphs ++ [g] }

/-- The next identity is given away. -/
def spend (a : Atlas) : Atlas := { a with next := a.next.next }

/-- A graph is replaced by what it has become. -/
def grow (a : Atlas) (graph : Nat) (f : AnyGraph → AnyGraph) : Atlas :=
  { a with graphs := a.graphs.modify graph f }

/-- The graphs after a step. -/
def after (a : Atlas) : AtlasStep → Atlas
  | .newList => a.spend.add (.list (.empty a.next))
  | .newStatic => a.spend.add (.static (.empty a.next))
  | .ofEnds nodes pairs => match (StaticDigraph.ofEnds a.next nodes pairs).outcome with
      | .ok g => a.spend.add (.static g)
      | .error _ => a.spend
  | .copy original => match a.graphs[original]? with
      | some g => a.add g
      | none => a
  | .addNode graph => a.grow graph AnyGraph.addNode
  | .addArc graph tail head => a.grow graph (AnyGraph.addArc tail head)
  | .build graph nodes pairs => a.grow graph (AnyGraph.build nodes pairs)

/-- The number that a graph had before a step: a copy had the one of its original. -/
def before (a : Atlas) (step : AtlasStep) (graph : Nat) : Nat :=
  match step with
  | .copy original =>
      if graph = a.graphs.length ∧ original < a.graphs.length then original else graph
  | _ => graph

/-- Identities are given away once, and unbuilt graphs are empty. -/
structure Sound (a : Atlas) : Prop where
  spent : ∀ (i : Nat) (g : AnyGraph), a.graphs[i]? = some g → g.digraph.id.number < a.next.number
  graphs : ∀ (i : Nat) (g : AnyGraph), a.graphs[i]? = some g → g.Sound

variable {a a' : Atlas} {step : AtlasStep} {g g' : AnyGraph} {i : Nat}

/-- What a step does. -/
inductive Change (a : Atlas) (step : AtlasStep) : Atlas → Prop
  /-- There is one graph more, with an identity of its own. -/
  | founded (g : AnyGraph) (hid : g.digraph.id = a.next) (hsound : g.Sound)
      (hbefore : ∀ i, a.before step i = i) : Change a step (a.spend.add g)
  /-- A graph was refused, and its identity is lost. -/
  | lost (hbefore : ∀ i, a.before step i = i) : Change a step a.spend
  /-- There is one graph more, a copy. -/
  | copied (original : Nat) (g : AnyGraph) (hg : a.graphs[original]? = some g)
      (hbefore : ∀ i, a.before step i = if i = a.graphs.length then original else i) :
      Change a step (a.add g)
  /-- A graph grows, or stays as it is. -/
  | grown (graph : Nat) (f : AnyGraph → AnyGraph)
      (hgrows : ∀ g : AnyGraph, g.Sound → g.digraph.Grows (f g).digraph ∧ (f g).Sound)
      (hbefore : ∀ i, a.before step i = i) : Change a step (a.grow graph f)

theorem step_cases (a : Atlas) (step : AtlasStep) : Change a step (a.after step) := by
  cases step with
  | newList => exact .founded _ rfl trivial fun _ => rfl
  | newStatic => exact .founded _ rfl (fun _ => ⟨rfl, rfl⟩) fun _ => rfl
  | ofEnds nodes pairs =>
      cases h : (StaticDigraph.ofEnds a.next nodes pairs).outcome with
      | error fault =>
          simp only [after, h]
          exact .lost fun _ => rfl
      | ok g =>
          obtain ⟨-, -, -, hbelow, rfl⟩ := StaticDigraph.build_eq_ok h
          simp only [after, h]
          refine .founded _ rfl ?_ fun _ => rfl
          intro hbuilt
          cases hbuilt
  | copy original =>
      cases h : a.graphs[original]? with
      | some g =>
          have hlt : original < a.graphs.length := (List.getElem?_eq_some_iff.mp h).1
          simp only [after, h]
          exact .copied original g h fun i => by simp [before, hlt]
      | none =>
          -- there is nothing to copy, and nothing happens
          have hle : a.graphs.length ≤ original := List.getElem?_eq_none_iff.mp h
          have hchange : Change a (.copy original) (a.grow a.graphs.length id) :=
            .grown _ id (fun g hg => ⟨.refl _, hg⟩) fun i =>
              if_neg fun hcopy => Nat.not_lt.mpr hle hcopy.2
          have hgrow : a.grow a.graphs.length id = a := by simp [grow]
          simp only [after, h]
          rwa [hgrow] at hchange
  | addNode graph => exact .grown graph _ (fun g hg => ⟨g.grows_addNode, hg.addNode⟩) fun _ => rfl
  | addArc graph tail head =>
      exact .grown graph _ (fun g hg => ⟨g.grows_addArc tail head, hg.addArc tail head⟩) fun _ => rfl
  | build graph nodes pairs =>
      exact .grown graph _
        (fun g hg => ⟨AnyGraph.grows_build hg nodes pairs, hg.build nodes pairs⟩) fun _ => rfl

/-! ## One step -/

theorem before_eq_or_lt (a : Atlas) (step : AtlasStep) (i : Nat) :
    a.before step i = i ∨ a.before step i < a.graphs.length := by
  unfold before
  split
  · split
    · rename_i hcopy
      exact .inr hcopy.2
    · exact .inl rfl
  · exact .inl rfl

theorem getElem?_add (a : Atlas) (g : AnyGraph) (i : Nat) :
    (a.add g).graphs[i]? = if i = a.graphs.length then some g else a.graphs[i]? := by
  show (a.graphs ++ [g])[i]? = _
  rw [List.getElem?_append]
  split
  · rename_i hlt
    rw [if_neg (Nat.ne_of_lt hlt)]
  · rename_i hge
    split
    · rename_i heq
      rw [heq, Nat.sub_self]
      rfl
    · rw [List.getElem?_eq_none (by simp; omega), List.getElem?_eq_none (by omega)]

variable (h : Change a step a')
include h

/-- The graphs after a step: each has grown from one that was there, or is new. -/
theorem Change.graph_cases (ha : a.Sound) (hg : a'.graphs[i]? = some g) : g.Sound ∧
    ((∃ g₀, a.graphs[a.before step i]? = some g₀ ∧ g₀.digraph.Grows g.digraph) ∨
      (i = a.graphs.length ∧ a.before step i = i ∧ g.digraph.id = a.next ∧
        a.next.number < a'.next.number)) := by
  have hold : a.graphs[i]? = some g → a.before step i = i → g.Sound ∧
      ∃ g₀, a.graphs[a.before step i]? = some g₀ ∧ g₀.digraph.Grows g.digraph := by
    intro hg hbefore
    rw [hbefore]
    exact ⟨ha.graphs i g hg, g, hg, .refl _⟩
  cases h with
  | founded new hid hsound hbefore =>
      rw [getElem?_add] at hg
      split at hg
      · rename_i hi
        cases hg
        exact ⟨hsound, .inr ⟨hi, hbefore i, hid, Nat.lt_succ_self _⟩⟩
      · exact (hold hg (hbefore i)).imp_right .inl
  | lost hbefore => exact (hold hg (hbefore i)).imp_right .inl
  | copied original new hnew hbefore =>
      rw [getElem?_add] at hg
      split at hg
      · rename_i hi
        cases hg
        rw [hbefore, if_pos hi]
        exact ⟨ha.graphs _ _ hnew, .inl ⟨g, hnew, .refl _⟩⟩
      · rename_i hi
        exact (hold hg ((hbefore i).trans (if_neg hi))).imp_right .inl
  | grown graph f hgrows hbefore =>
      replace hg : (a.graphs.modify graph f)[i]? = some g := hg
      rw [List.getElem?_modify] at hg
      obtain ⟨g₀, hg₀, rfl⟩ := Option.map_eq_some_iff.mp hg
      rw [hbefore]
      split
      · exact ⟨(hgrows g₀ (ha.graphs i g₀ hg₀)).2, .inl ⟨g₀, hg₀, (hgrows g₀ (ha.graphs i g₀ hg₀)).1⟩⟩
      · exact ⟨ha.graphs i g₀ hg₀, .inl ⟨g₀, hg₀, .refl _⟩⟩

/-- A graph keeps its number and grows. -/
theorem Change.grows (ha : a.Sound) (hg : a.graphs[i]? = some g) :
    ∃ g', a'.graphs[i]? = some g' ∧ g.digraph.Grows g'.digraph := by
  have hi : i ≠ a.graphs.length := Nat.ne_of_lt (List.getElem?_eq_some_iff.mp hg).1
  cases h with
  | founded new | copied original new =>
      refine ⟨g, ?_, .refl _⟩
      rw [getElem?_add]
      exact (if_neg hi).trans hg
  | lost hbefore => exact ⟨g, hg, .refl _⟩
  | grown graph f hgrows hbefore =>
      show ∃ g', (a.graphs.modify graph f)[i]? = some g' ∧ _
      rw [List.getElem?_modify, hg]
      refine ⟨_, rfl, ?_⟩
      dsimp only
      split
      · exact (hgrows g (ha.graphs i g hg)).1
      · exact .refl _

theorem Change.next_le : a.next.number ≤ a'.next.number := by
  cases h with
  | founded | lost => exact Nat.le_succ _
  | copied | grown => exact Nat.le_refl _

theorem Change.length_le : a.graphs.length ≤ a'.graphs.length := by
  cases h with
  | founded g | copied _ g =>
      show _ ≤ (a.graphs ++ [g]).length
      rw [List.length_append]
      exact Nat.le_add_right _ _
  | lost => exact Nat.le_refl _
  | grown graph f => exact Nat.le_of_eq (List.length_modify f a.graphs graph).symm

/-- A number that is not taken after a step was the number of no graph before it. -/
theorem Change.before_of_le (hi : a'.graphs.length ≤ i) : a.before step i = i := by
  cases h with
  | copied original g hg hbefore =>
      have hlt : a.graphs.length < (a.graphs ++ [g]).length := by simp
      rw [hbefore, if_neg (Nat.ne_of_gt (Nat.lt_of_lt_of_le hlt hi))]
  | founded g hid hsound hbefore => exact hbefore i
  | lost hbefore => exact hbefore i
  | grown graph f hgrows hbefore => exact hbefore i

theorem Change.sound (ha : a.Sound) : a'.Sound where
  spent i g hg := by
    rcases (h.graph_cases ha hg).2 with ⟨g₀, hg₀, hgrows⟩ | ⟨-, -, hid, hlt⟩
    · rw [hgrows.id_eq]
      exact Nat.lt_of_lt_of_le (ha.spent _ g₀ hg₀) h.next_le
    · rw [hid]
      exact hlt
  graphs i g hg := (h.graph_cases ha hg).1

omit h

/-! ## Histories -/

/-- The graphs after some steps, of which the last one comes first. -/
def ofSteps : List AtlasStep → Atlas
  | [] => empty
  | step :: earlier => (ofSteps earlier).after step

/-- The last state that two graphs have in common, if one is a copy of the other or both are copies,
of copies perhaps, of one graph. -/
def shared : List AtlasStep → Nat → Nat → Option Digraph
  | [], _, _ => none
  | step :: earlier, i, j =>
      if i = j then (ofSteps (step :: earlier)).graphs[i]?.map AnyGraph.digraph
      else shared earlier ((ofSteps earlier).before step i) ((ofSteps earlier).before step j)

/-- A graph has handed out a key, at the end of some steps or before. -/
def HandedOut {kind : KeyKind} (steps : List AtlasStep) (i : Nat) (key : Key kind) : Prop :=
  ∃ earlier, earlier <:+ steps ∧ ∃ g, (ofSteps earlier).graphs[i]? = some g ∧ g.HandsOut key

variable {steps earlier : List AtlasStep} {j : Nat} {h : AnyGraph} {d : Digraph}

theorem sound_ofSteps (steps : List AtlasStep) : (ofSteps steps).Sound := by
  induction steps with
  | nil => exact ⟨by simp [ofSteps, empty], by simp [ofSteps, empty]⟩
  | cons step earlier ih => exact (step_cases _ step).sound ih

/-- Whatever happens, a graph grows. -/
theorem grows_ofSteps (hsuffix : earlier <:+ steps) (hg : (ofSteps earlier).graphs[i]? = some g) :
    ∃ g', (ofSteps steps).graphs[i]? = some g' ∧ g.digraph.Grows g'.digraph := by
  induction steps with
  | nil =>
      rw [List.suffix_nil.mp hsuffix] at hg
      exact ⟨g, hg, .refl _⟩
  | cons step steps ih =>
      rcases List.suffix_cons_iff.mp hsuffix with rfl | hsuffix
      · exact ⟨g, hg, .refl _⟩
      · obtain ⟨g', hg', hgrows⟩ := ih hsuffix
        obtain ⟨g'', hg'', hgrows'⟩ := (step_cases _ step).grows (sound_ofSteps steps) hg'
        exact ⟨g'', hg'', hgrows.trans hgrows'⟩

/-- A graph has the keys that it has ever handed out. -/
theorem has_of_handedOut {kind : KeyKind} {key : Key kind} (hkey : HandedOut steps i key)
    (hg : (ofSteps steps).graphs[i]? = some g) : g.digraph.Has key := by
  obtain ⟨earlier, hsuffix, g₀, hg₀, hout⟩ := hkey
  obtain ⟨g', hg', hgrows⟩ := grows_ofSteps hsuffix hg₀
  cases hg.symm.trans hg'
  exact (AnyGraph.handsOut_iff.mp hout).grows hgrows

/-! ## Relatives -/

theorem shared_comm (steps : List AtlasStep) (i j : Nat) :
    shared steps i j = shared steps j i := by
  induction steps generalizing i j with
  | nil => rfl
  | cons step earlier ih =>
      unfold shared
      by_cases hij : i = j
      · rw [hij]
      · rw [if_neg hij, if_neg (Ne.symm hij), ih]

/-- A number that is not taken is not the one of a relative. -/
theorem shared_of_le (hi : (ofSteps steps).graphs.length ≤ i) (hij : i ≠ j) :
    shared steps i j = none := by
  induction steps generalizing j with
  | nil => rfl
  | cons step earlier ih =>
      have hstep := step_cases (ofSteps earlier) step
      have hle : (ofSteps earlier).graphs.length ≤ i := Nat.le_trans hstep.length_le hi
      unfold shared
      rw [if_neg hij, hstep.before_of_le hi]
      apply ih hle
      rcases before_eq_or_lt (ofSteps earlier) step j with hj | hj
      · rwa [hj]
      · exact Nat.ne_of_gt (Nat.lt_of_lt_of_le hj hle)

/-- A new graph has nothing in common with those that were there. -/
theorem unrelated_of_new {g₀ : AnyGraph} (hg₀ : (ofSteps steps).graphs[i]? = some g₀)
    (hgrows : g₀.digraph.Grows g.digraph) (hj : j = (ofSteps steps).graphs.length)
    (hid : h.digraph.id = (ofSteps steps).next) :
    shared steps j i = none ∧ h.digraph.id ≠ g.digraph.id := by
  have hi : i < j := by
    rw [hj]
    exact (List.getElem?_eq_some_iff.mp hg₀).1
  refine ⟨shared_of_le (Nat.le_of_eq hj.symm) (Nat.ne_of_gt hi), ?_⟩
  intro heq
  have hlt := (sound_ofSteps steps).spent i g₀ hg₀
  rw [← hgrows.id_eq, ← heq, hid] at hlt
  exact Nat.lt_irrefl _ hlt

/-- Graphs have something in common if they have the identity in common, and then both have grown from
it. -/
theorem shared_cases (hg : (ofSteps steps).graphs[i]? = some g)
    (hh : (ofSteps steps).graphs[j]? = some h) :
    (shared steps i j = none ∧ g.digraph.id ≠ h.digraph.id) ∨
      ∃ d, shared steps i j = some d ∧ d.Grows g.digraph ∧ d.Grows h.digraph := by
  induction steps generalizing i j g h with
  | nil => exact absurd hg (by simp [ofSteps, empty])
  | cons step earlier ih =>
      have hsound := sound_ofSteps earlier
      have hstep := step_cases (ofSteps earlier) step
      by_cases hij : i = j
      · subst hij
        cases hg.symm.trans hh
        refine .inr ⟨g.digraph, ?_, .refl _, .refl _⟩
        unfold shared
        rw [if_pos rfl, hg]
        rfl
      · unfold shared
        rw [if_neg hij]
        -- at most one of them can be new
        rcases (hstep.graph_cases hsound hg).2 with ⟨g₀, hg₀, hgrows⟩ | ⟨hi, hbefore, hid, -⟩
        · rcases (hstep.graph_cases hsound hh).2 with ⟨h₀, hh₀, hgrows'⟩ | ⟨hj, hbefore, hid, -⟩
          · rw [hgrows.id_eq, hgrows'.id_eq]
            rcases ih hg₀ hh₀ with hnone | ⟨d, hd, hdg, hdh⟩
            · exact .inl hnone
            · exact .inr ⟨d, hd, hdg.trans hgrows, hdh.trans hgrows'⟩
          · obtain ⟨hnone, hne⟩ := unrelated_of_new hg₀ hgrows hj hid
            rw [hbefore, shared_comm]
            exact .inl ⟨hnone, hne.symm⟩
        · rcases (hstep.graph_cases hsound hh).2 with ⟨h₀, hh₀, hgrows⟩ | ⟨hj, -⟩
          · rw [hbefore]
            exact .inl (unrelated_of_new hh₀ hgrows hi hid)
          · exact absurd (hi.trans hj.symm) hij

/-! ## Accepted keys -/

/-- The element of a number was in the shared state of two graphs, and is the same in both. -/
structure Common (d g h : Digraph) (kind : KeyKind) (index : Nat) : Prop where
  lt : index < d.count kind
  ends : kind = .arc → ∃ e, d.ends[index]? = some e ∧ g.ends[index]? = some e ∧
    h.ends[index]? = some e

theorem common_of_lt {d g h : Digraph} (hg : d.Grows g) (hh : d.Grows h) {kind : KeyKind}
    {index : Nat} (hlt : index < d.count kind) : Common d g h kind index where
  lt := hlt
  ends hkind := by
    subst hkind
    have hd : d.ends[index]? = some d.ends[index] := Array.getElem?_eq_getElem hlt
    exact ⟨_, hd, (hg.ends hlt).trans hd, (hh.ends hlt).trans hd⟩

/-- What becomes of a key that a graph has handed out, at another graph: it is accepted if the two are
relatives, as far as the other one has grown. Then it names an element that they have in common, or
else one that both were given since they have grown apart. Every other key is refused. -/
theorem check_handedOut (hg : (ofSteps steps).graphs[i]? = some g)
    (hh : (ofSteps steps).graphs[j]? = some h) {kind : KeyKind} {key : Key kind}
    (hkey : HandedOut steps j key) :
    ((∃ index, g.digraph.check key = .ok index) → ∃ d, shared steps i j = some d ∧
      (Common d g.digraph h.digraph kind key.index ∨
        d.count kind ≤ key.index ∧ key.index < g.digraph.count kind ∧
          key.index < h.digraph.count kind)) ∧
    ∀ cause, g.digraph.check key = .error cause →
      (cause = .foreignIdentity ∧ shared steps i j = none) ∨
        (cause = .indexOutOfRange ∧ (shared steps i j).isSome ∧
          g.digraph.count kind ≤ key.index) := by
  have hhas := has_of_handedOut hkey hh
  constructor
  · intro haccepted
    have hhas' := Digraph.check_eq_ok_iff.mp haccepted
    rcases shared_cases hg hh with ⟨-, hne⟩ | ⟨d, hd, hdg, hdh⟩
    · exact absurd (hhas'.1.symm.trans hhas.1) hne
    · refine ⟨d, hd, ?_⟩
      rcases Nat.lt_or_ge key.index (d.count kind) with hlt | hge
      · exact .inl (common_of_lt hdg hdh hlt)
      · exact .inr ⟨hge, hhas'.2, hhas.2⟩
  · intro cause hcause
    rcases shared_cases hg hh with ⟨hnone, hne⟩ | ⟨d, hd, hdg, hdh⟩
    · rcases Digraph.check_eq_error_iff.mp hcause with ⟨-, rfl⟩ | ⟨hid, -⟩
      · exact .inl ⟨rfl, hnone⟩
      · exact absurd (hid.symm.trans hhas.1) hne
    · rcases Digraph.check_eq_error_iff.mp hcause with ⟨hid, -⟩ | ⟨-, hle, rfl⟩
      · exact absurd (hhas.1.trans (hdh.id_eq.trans hdg.id_eq.symm)) hid
      · exact .inr ⟨rfl, by rw [hd]; rfl, hle⟩

/-- A graph with two nodes and its copy, both of which are then given an arc between these nodes, each
in another direction. -/
def copiesApart : List AtlasStep :=
  [.addArc 1 ⟨⟨1⟩, 1⟩ ⟨⟨1⟩, 0⟩, .addArc 0 ⟨⟨1⟩, 0⟩ ⟨⟨1⟩, 1⟩, .copy 0, .addNode 0, .addNode 0, .newList]

/-- A node that both copies had from the start is the same one in both. -/
theorem node_of_copy : ∃ g h, (ofSteps copiesApart).graphs[0]? = some g ∧
    (ofSteps copiesApart).graphs[1]? = some h ∧ HandedOut copiesApart 1 (⟨⟨1⟩, 1⟩ : Node) ∧
    (∃ index, g.digraph.check (⟨⟨1⟩, 1⟩ : Node) = .ok index) ∧
    ∃ d, shared copiesApart 0 1 = some d ∧ Common d g.digraph h.digraph .node 1 := by
  have hkey : HandedOut copiesApart 1 (⟨⟨1⟩, 1⟩ : Node) :=
    ⟨_, List.suffix_rfl, _, rfl, .numbered (show Digraph.key _ .node 1 = _ from rfl)⟩
  refine ⟨_, _, rfl, rfl, hkey, ⟨⟨1, by decide⟩, rfl⟩, ?_⟩
  obtain ⟨d, hd, hcommon | ⟨hge, -⟩⟩ := (check_handedOut
    (show (ofSteps copiesApart).graphs[0]? = some _ from rfl)
    (show (ofSteps copiesApart).graphs[1]? = some _ from rfl) hkey).1 ⟨⟨1, by decide⟩, rfl⟩
  · exact ⟨d, hd, hcommon⟩
  · have hcount : (shared copiesApart 0 1).map (·.nodeCount) = some 2 := rfl
    rw [hd] at hcount
    have htwo : d.nodeCount = 2 := Option.some.inj hcount
    change d.nodeCount ≤ 1 at hge
    omega

/-- An arc that one copy was given is accepted by the other one, where its number is that of another
arc. -/
theorem arc_of_copy : ¬ ∀ (steps : List AtlasStep) (i j : Nat) (g h : AnyGraph) (arc : Arc),
    (ofSteps steps).graphs[i]? = some g → (ofSteps steps).graphs[j]? = some h →
    HandedOut steps j arc → (∃ index, g.digraph.check arc = .ok index) →
    g.digraph.ends[arc.index]? = h.digraph.ends[arc.index]? := by
  intro hsame
  have hkey : HandedOut copiesApart 1 (⟨⟨1⟩, 0⟩ : Arc) :=
    ⟨_, List.suffix_rfl, _, rfl, .numbered (show Digraph.key _ .arc 0 = _ from rfl)⟩
  have hends := hsame copiesApart 0 1 _ _ _ rfl rfl hkey ⟨⟨0, by decide⟩, rfl⟩
  have hne : (some ⟨0, 1⟩ : Option Ends) ≠ some ⟨1, 0⟩ := by decide
  exact hne hends

end Atlas

end NetworkFlow
