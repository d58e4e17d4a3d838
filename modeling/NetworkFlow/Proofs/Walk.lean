import NetworkFlow.Proofs.Flow

/-!
# Sending along lists of residual arcs

The engines change flows along paths and cycles of residual arcs. Most of what
such a change does needs only that the ends of the arcs cancel out, all but the
first and the last one: `Leads path u v` says so for every weight on the nodes
at once. What it does to a single arc needs, besides, that no arc occurs twice.

## Main results

* `outflow_sendAll`: only the two ends of a path gain or lose.
* `room_sendAll_self`, `Within.sendAll`: a path without repetition takes as
  much as each of its arcs has room for.
* `costOf_sendAll`: the cost changes by the amount times the price of the path.
-/

namespace NetworkFlow

variable {n m : Nat}

/-- The cost of a unit along a residual arc. -/
def ResidualArc.price (cost : Table Int m) (r : ResidualArc m) : Int :=
  if r.backward then -cost[r.arc] else cost[r.arc]

theorem ResidualArc.price_reverse (cost : Table Int m) (r : ResidualArc m) :
    r.reverse.price cost = -r.price cost := by
  obtain ⟨a, backward⟩ := r
  cases backward <;> simp [price, reverse]

/-- Two residual arcs of the same arc are equal or undo each other. -/
theorem ResidualArc.eq_or_eq_reverse {r s : ResidualArc m} (h : r.arc = s.arc) :
    s = r ∨ s = r.reverse := by
  obtain ⟨a, x⟩ := r
  obtain ⟨b, y⟩ := s
  obtain rfl : a = b := h
  cases x <;> cases y <;> simp [reverse]

/-- The cost of a unit along all residual arcs of a list. -/
def priceOf (cost : Table Int m) (path : List (ResidualArc m)) : Int :=
  (path.map (·.price cost)).sum

/-- Changes the flow along all residual arcs of a list by an amount. -/
def sendAll (flow : Table Int m) (path : List (ResidualArc m)) (amount : Int) : Table Int m :=
  path.foldl (fun flow r => sendAlong flow r amount) flow

@[simp] theorem sendAll_nil (flow : Table Int m) (amount : Int) : sendAll flow [] amount = flow :=
  rfl

@[simp] theorem sendAll_cons (flow : Table Int m) (r : ResidualArc m)
    (path : List (ResidualArc m)) (amount : Int) :
    sendAll flow (r :: path) amount = sendAll (sendAlong flow r amount) path amount :=
  rfl

theorem sendAll_append (flow : Table Int m) (path rest : List (ResidualArc m)) (amount : Int) :
    sendAll flow (path ++ rest) amount = sendAll (sendAll flow path amount) rest amount :=
  List.foldl_append

theorem sendAlong_zero (flow : Table Int m) (r : ResidualArc m) : sendAlong flow r 0 = flow := by
  apply Table.ext
  intro a
  rw [getElem_sendAlong]
  split_ifs <;> simp

theorem sendAll_zero (flow : Table Int m) (path : List (ResidualArc m)) :
    sendAll flow path 0 = flow := by
  induction path with
  | nil => rfl
  | cons r path ih => rw [sendAll_cons, sendAlong_zero, ih]

/-- An arc of which no residual arc is on the list keeps its flow. -/
theorem getElem_sendAll_of_notMem {path : List (ResidualArc m)} {a : Fin m}
    (h : a ∉ path.map (·.arc)) (flow : Table Int m) (amount : Int) :
    (sendAll flow path amount)[a] = flow[a] := by
  induction path generalizing flow with
  | nil => rfl
  | cons r path ih =>
      simp only [List.map_cons, List.mem_cons, not_or] at h
      rw [sendAll_cons, ih h.2, getElem_sendAlong, if_neg (Ne.symm h.1)]

/-- An arc of which one residual arc is on the list carries more or less by the amount. -/
theorem getElem_sendAll_of_mem {path : List (ResidualArc m)} {r : ResidualArc m}
    (hnodup : (path.map (·.arc)).Nodup) (hr : r ∈ path) (flow : Table Int m) (amount : Int) :
    (sendAll flow path amount)[r.arc] =
      flow[r.arc] + (if r.backward then -amount else amount) := by
  induction path generalizing flow with
  | nil => simp at hr
  | cons s path ih =>
      rw [List.map_cons, List.nodup_cons] at hnodup
      rw [sendAll_cons]
      rcases List.mem_cons.mp hr with rfl | hr
      · rw [getElem_sendAll_of_notMem hnodup.1, getElem_sendAlong, if_pos rfl]
      · have hne : s.arc ≠ r.arc := by
          intro h
          exact hnodup.1 (h ▸ List.mem_map_of_mem hr)
        rw [ih hnodup.2 hr, getElem_sendAlong, if_neg hne]

/-- An arc carries more by the amount for every time it is on the list, and less by it for
every time the list runs against it. -/
theorem getElem_sendAll (flow : Table Int m) (path : List (ResidualArc m)) (amount : Int)
    (a : Fin m) : (sendAll flow path amount)[a] =
      flow[a] + amount * ((path.count ⟨a, false⟩ : Int) - path.count ⟨a, true⟩) := by
  induction path generalizing flow with
  | nil => simp
  | cons r path ih =>
      obtain ⟨b, backward⟩ := r
      rw [sendAll_cons, ih, getElem_sendAlong, List.count_cons, List.count_cons]
      by_cases hab : b = a
      · subst hab
        cases backward
        · simp
          ring
        · simp
          ring
      · simp [hab]

/-- What an arc is to a list of residual arcs: on it, against it, or off it. -/
theorem ResidualArc.mem_or_reverse_mem_or_notMem (path : List (ResidualArc m)) (r : ResidualArc m) :
    r ∈ path ∨ r.reverse ∈ path ∨ r.arc ∉ path.map (·.arc) := by
  by_cases h : r.arc ∈ path.map (·.arc)
  · obtain ⟨s, hs, harc⟩ := List.mem_map.mp h
    rcases ResidualArc.eq_or_eq_reverse harc with hrs | hrs
    · exact Or.inl (hrs ▸ hs)
    · refine Or.inr (Or.inl ?_)
      rw [hrs, ResidualArc.reverse_reverse]
      exact hs
  · exact Or.inr (Or.inr h)

/-- What a list of residual arcs costs per unit is what sending along it adds to the cost. -/
theorem costOf_sendAlong (cost flow : Table Int m) (r : ResidualArc m) (amount : Int) :
    costOf cost (sendAlong flow r amount) = costOf cost flow + amount * r.price cost := by
  have hterm : ∀ a : Fin m, cost[a] * (sendAlong flow r amount)[a] =
      cost[a] * flow[a] + if r.arc = a then amount * r.price cost else 0 := by
    intro a
    rw [getElem_sendAlong, ResidualArc.price]
    by_cases h : r.arc = a
    · subst h
      simp only [if_true]
      split_ifs <;> ring
    · simp [h]
  unfold costOf
  rw [Finset.sum_congr rfl fun a _ => hterm a, Finset.sum_add_distrib, Finset.sum_ite_eq]
  simp

theorem costOf_sendAll (cost flow : Table Int m) (path : List (ResidualArc m)) (amount : Int) :
    costOf cost (sendAll flow path amount) = costOf cost flow + amount * priceOf cost path := by
  induction path generalizing flow with
  | nil => simp [priceOf]
  | cons r path ih =>
      rw [sendAll_cons, ih, costOf_sendAlong]
      simp only [priceOf, List.map_cons, List.sum_cons]
      ring

namespace Network

variable (net : Network n m)

/-- Along a list of residual arcs every weight on the nodes drops as much as from the
node `u` to the node `v`. -/
def Leads (path : List (ResidualArc m)) (u v : Fin n) : Prop :=
  ∀ weight : Fin n → Int,
    (path.map fun r => weight (net.source r) - weight (net.target r)).sum = weight u - weight v

theorem leads_nil (u : Fin n) : net.Leads [] u u := by
  intro weight
  simp

theorem Leads.cons {net : Network n m} {r : ResidualArc m} {path : List (ResidualArc m)}
    {v : Fin n} (h : net.Leads path (net.target r) v) : net.Leads (r :: path) (net.source r) v := by
  intro weight
  rw [List.map_cons, List.sum_cons, h weight]
  ring

theorem Leads.append {net : Network n m} {path rest : List (ResidualArc m)} {u v w : Fin n}
    (h : net.Leads path u v) (h' : net.Leads rest v w) : net.Leads (path ++ rest) u w := by
  intro weight
  rw [List.map_append, List.sum_append, h weight, h' weight]
  ring

theorem Leads.of_perm {net : Network n m} {path path' : List (ResidualArc m)} {u v : Fin n}
    (h : net.Leads path u v) (hperm : path'.Perm path) : net.Leads path' u v := by
  intro weight
  rw [(hperm.map _).sum_eq, h weight]

/-- A path does not lead out of a set that its residual arcs do not leave. -/
theorem Leads.mem {net : Network n m} {path : List (ResidualArc m)} {u v : Fin n}
    {nodes : Finset (Fin n)} (h : net.Leads path u v) (hu : u ∈ nodes)
    (hclosed : ∀ r ∈ path, net.source r ∈ nodes → net.target r ∈ nodes) : v ∈ nodes := by
  by_contra hv
  have hsum := h fun w => if w ∈ nodes then 0 else 1
  have hnonneg : 0 ≤ (path.map fun r => (if net.source r ∈ nodes then (0 : Int) else 1) -
      if net.target r ∈ nodes then 0 else 1).sum := by
    apply List.sum_nonneg
    simp only [List.mem_map, forall_exists_index, and_imp, forall_apply_eq_imp_iff₂]
    intro r hr
    have := hclosed r hr
    split_ifs <;> simp_all
  simp only [hu, hv, if_true, if_false] at hsum
  omega

/-- The price of a residual arc after the potentials of its ends are taken into account. -/
def reduced (cost : Table Int m) (potential : Table Int n) (r : ResidualArc m) : Int :=
  r.price cost + potential[net.source r] - potential[net.target r]

theorem reduced_reverse (cost : Table Int m) (potential : Table Int n) (r : ResidualArc m) :
    net.reduced cost potential r.reverse = -net.reduced cost potential r := by
  rw [reduced, reduced, ResidualArc.price_reverse, net.source_reverse, net.target_reverse]
  ring

/-- The reduced costs of a path are its costs and the potentials of its two ends. -/
theorem Leads.sum_reduced {net : Network n m} {path : List (ResidualArc m)} {u v : Fin n}
    (h : net.Leads path u v) (cost : Table Int m) (potential : Table Int n) :
    (path.map (net.reduced cost potential)).sum =
      priceOf cost path + potential[u] - potential[v] := by
  have hw := h fun w => potential[w]
  have hsplit : ∀ path : List (ResidualArc m), (path.map (net.reduced cost potential)).sum =
      priceOf cost path +
        (path.map fun r => potential[net.source r] - potential[net.target r]).sum := by
    intro path
    induction path with
    | nil => simp [priceOf]
    | cons r path ih =>
        simp only [priceOf, List.map_cons, List.sum_cons, reduced] at ih ⊢
        rw [ih]
        ring
  rw [hsplit, hw]
  ring

/-- Sending along a path takes the amount out of its first node and into its last one. -/
theorem outflow_sendAll {net : Network n m} {path : List (ResidualArc m)} {u v : Fin n}
    (h : net.Leads path u v) (flow : Table Int m) (amount : Int) (w : Fin n) :
    net.outflow (sendAll flow path amount) w =
      net.outflow flow w + ((if u = w then amount else 0) - if v = w then amount else 0) := by
  have hsum : ∀ (path : List (ResidualArc m)) (flow : Table Int m),
      net.outflow (sendAll flow path amount) w = net.outflow flow w +
        amount * (path.map fun r => (if net.source r = w then 1 else 0) -
          if net.target r = w then (1 : Int) else 0).sum := by
    intro path
    induction path with
    | nil =>
        intro flow
        simp
    | cons r path ih =>
        intro flow
        rw [sendAll_cons, ih, outflow_sendAlong, List.map_cons, List.sum_cons]
        split_ifs <;> ring
  rw [hsum, h fun x => if x = w then 1 else 0]
  split_ifs <;> ring

/-- Sending around a cycle leaves every node as it is. -/
theorem outflow_sendAll_cycle {net : Network n m} {path : List (ResidualArc m)} {u : Fin n}
    (h : net.Leads path u u) (flow : Table Int m) (amount : Int) (w : Fin n) :
    net.outflow (sendAll flow path amount) w = net.outflow flow w := by
  rw [outflow_sendAll h]
  simp

theorem room_congr {flow other : Table Int m} {r : ResidualArc m}
    (h : flow[r.arc] = other[r.arc]) : net.room flow r = net.room other r := by
  simp only [room, h]

theorem room_add_reverse (flow : Table Int m) (r : ResidualArc m) :
    net.room flow r + net.room flow r.reverse = net.cap[r.arc] := by
  obtain ⟨a, backward⟩ := r
  cases backward <;> simp [room, ResidualArc.reverse]

/-- A residual arc of the path loses the amount of its room. -/
theorem room_sendAll_self {path : List (ResidualArc m)} {r : ResidualArc m}
    (hnodup : (path.map (·.arc)).Nodup) (hr : r ∈ path) (flow : Table Int m) (amount : Int) :
    net.room (sendAll flow path amount) r = net.room flow r - amount := by
  have h := getElem_sendAll_of_mem hnodup hr flow amount
  unfold room
  rw [h]
  cases r.backward
  · simp only [Bool.false_eq_true, if_false]
    ring
  · simp only [if_true]
    ring

theorem room_sendAll_of_notMem {path : List (ResidualArc m)} {r : ResidualArc m}
    (h : r.arc ∉ path.map (·.arc)) (flow : Table Int m) (amount : Int) :
    net.room (sendAll flow path amount) r = net.room flow r :=
  net.room_congr (getElem_sendAll_of_notMem h flow amount)

/-- A path without repetition takes an amount for which each of its residual arcs has room. If it
uses both residual arcs of an arc, the arc keeps its flow. -/
theorem Within.sendAll {net : Network n m} {flow : Table Int m} {path : List (ResidualArc m)}
    {amount : Int} (h : net.Within flow) (hnodup : path.Nodup)
    (hpos : 0 ≤ amount) (hroom : ∀ r ∈ path, amount ≤ net.room flow r) :
    net.Within (sendAll flow path amount) := by
  intro a
  obtain ⟨hlo, hhi⟩ := h a
  rw [getElem_sendAll, hnodup.count, hnodup.count]
  by_cases hraise : ⟨a, false⟩ ∈ path <;> by_cases hlower : ⟨a, true⟩ ∈ path
  · simp [hraise, hlower, hlo, hhi]
  · have := hroom _ hraise
    rw [net.room_forward] at this
    simp only [hraise, hlower, if_true, if_false]
    omega
  · have := hroom _ hlower
    rw [net.room_backward] at this
    simp only [hraise, hlower, if_true, if_false]
    omega
  · simp [hraise, hlower, hlo, hhi]

theorem room_sendAlong_self (flow : Table Int m) (r : ResidualArc m) (amount : Int) :
    net.room (sendAlong flow r amount) r = net.room flow r - amount :=
  net.room_sendAll_self (by simp) (List.mem_singleton_self r) flow amount

theorem room_sendAlong_of_ne {r r' : ResidualArc m} (h : r.arc ≠ r'.arc) (flow : Table Int m)
    (amount : Int) : net.room (sendAlong flow r amount) r' = net.room flow r' := by
  apply net.room_congr
  rw [getElem_sendAlong, if_neg h]

/-- Only the residual arc that undoes it gets room by sending along a residual arc. -/
theorem open_of_open_sendAlong {flow : Table Int m} {r r' : ResidualArc m} {amount : Int}
    (hpos : 0 ≤ amount) (h : 0 < net.room (sendAlong flow r amount) r') :
    0 < net.room flow r' ∨ r' = r.reverse := by
  by_cases harc : r.arc = r'.arc
  · rcases ResidualArc.eq_or_eq_reverse harc with rfl | hr
    · rw [net.room_sendAlong_self] at h
      exact Or.inl (by omega)
    · exact Or.inr hr
  · rw [net.room_sendAlong_of_ne harc] at h
    exact Or.inl h

/-- A residual arc takes an amount for which it has room. -/
theorem Within.sendAlong {net : Network n m} {flow : Table Int m} {r : ResidualArc m}
    {amount : Int} (h : net.Within flow) (hpos : 0 ≤ amount) (hroom : amount ≤ net.room flow r) :
    net.Within (sendAlong flow r amount) := by
  have hall : ∀ r' ∈ [r], amount ≤ net.room flow r' := by simpa using hroom
  exact h.sendAll (by simp) hpos hall

/-- The least of a start and the rooms of a list. -/
theorem foldl_min_room (flow : Table Int m) (rs : List (ResidualArc m)) (start : Int) :
    rs.foldl (fun least r => min least (net.room flow r)) start ≤ start ∧
      (∀ r ∈ rs, rs.foldl (fun least r => min least (net.room flow r)) start ≤ net.room flow r) ∧
      ∀ x, x ≤ start → (∀ r ∈ rs, x ≤ net.room flow r) →
        x ≤ rs.foldl (fun least r => min least (net.room flow r)) start := by
  induction rs generalizing start with
  | nil => exact ⟨le_refl _, by simp, fun x hx _ => hx⟩
  | cons r rs ih =>
      obtain ⟨hstart, hmem, hgreatest⟩ := ih (min start (net.room flow r))
      rw [List.foldl_cons]
      refine ⟨hstart.trans (min_le_left _ _), ?_, ?_⟩
      · intro r' hr'
        rcases List.mem_cons.mp hr' with rfl | hr'
        · exact hstart.trans (min_le_right _ _)
        · exact hmem r' hr'
      · intro x hx hrooms
        exact hgreatest x (le_min hx (hrooms r (by simp))) fun r' hr' => hrooms r' (by simp [hr'])

end Network

end NetworkFlow
