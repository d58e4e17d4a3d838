import NetworkFlow.CommandLine.Run
import NetworkFlow.Proofs.Refusals

/-!
# What the program reads

Numbers are read only if 64 bits hold them: the numbers of nodes in the rows and in the arguments
without sign, bounds and supplies with a sign. The number of nodes is given or is one more than the
largest number that occurs, and that sum is formed in 64 bits, too. If the largest number that there
is occurs, the sum ends the program. So all nodes of a problem that is read are below the number of
its nodes.

## Main results

* `exists_record_of_load`, `nodes_lt_of_ofArguments`: which numbers are read.
* `seen_eq_overflow_iff`: when the nodes that occur cannot be counted.
* `loaded`: what is known of a problem that has been read.
-/

namespace NetworkFlow.CommandLine

/-! ## Numbers -/

theorem lt_of_count? {text : String} {n : Nat} (h : Decimal.count? text = some n) :
    n < unsignedBound := by
  have hfilter := (Option.filter_eq_some_iff.mp h).2
  simpa using hfilter

theorem fits_of_amount? {text : String} {x : Int} (h : Decimal.amount? text = some x) :
    Width.bits64.Fits x := by
  have hfilter := (Option.filter_eq_some_iff.mp h).2
  simpa using hfilter

theorem lt_of_number? {value : String} {n : Nat} (h : number? value = some n) :
    n < unsignedBound := by
  have hfilter := (Option.filter_eq_some_iff.mp h).2
  simpa using hfilter

/-! ## Rows -/

section Fields

variable {α : Type} {header record : List String} {name : String} {read : String → Option α}

theorem readable_eq_ok {x : Option α} {a : α} : readable x = .ok a ↔ x = some a := by
  cases x <;> simp [readable]

/-- The value of a field that must be there has been read. -/
theorem exists_of_required {a : α} (h : required header record name read = .ok a) :
    ∃ text, read text = some a := by
  obtain ⟨text, -, h⟩ := bind_eq_ok.mp h
  obtain ⟨text, -, h⟩ := bind_eq_ok.mp h
  exact ⟨text, readable_eq_ok.mp h⟩

/-- So has the value of a field that may be absent, if there is one. -/
theorem exists_of_optional {a : α} (h : optional header record name read = .ok (some a)) :
    ∃ text, read text = some a := by
  obtain ⟨text, -, h⟩ := bind_eq_ok.mp h
  cases text with
  | none => cases h
  | some text =>
      simp only at h
      split at h
      · cases h
      · obtain ⟨b, hread, h⟩ := bind_eq_ok.mp h
        cases h
        exact ⟨text, readable_eq_ok.mp hread⟩

end Fields

/-- 64 bits hold the numbers of an arc row. -/
structure ArcRow.InRange (row : ArcRow) : Prop where
  tail_lt : row.tail < unsignedBound
  head_lt : row.head < unsignedBound
  lower : ∀ x, row.lower = some x → Width.bits64.Fits x
  upper : ∀ x, row.upper = some x → Width.bits64.Fits x

/-- 64 bits hold the numbers of a supply row. -/
structure SupplyRow.InRange (row : SupplyRow) : Prop where
  node_lt : row.node < unsignedBound
  supply : Width.bits64.Fits row.supply

theorem ArcRow.inRange_of_record {header record : List String} {row : ArcRow}
    (h : ArcRow.ofRecord header record = .ok row) : row.InRange := by
  obtain ⟨tail, htail, h⟩ := bind_eq_ok.mp h
  obtain ⟨head, hhead, h⟩ := bind_eq_ok.mp h
  obtain ⟨lower, hlower, h⟩ := bind_eq_ok.mp h
  obtain ⟨upper, hupper, h⟩ := bind_eq_ok.mp h
  obtain ⟨cost, -, h⟩ := bind_eq_ok.mp h
  cases h
  obtain ⟨_, htail⟩ := exists_of_required htail
  obtain ⟨_, hhead⟩ := exists_of_required hhead
  refine ⟨lt_of_count? htail, lt_of_count? hhead, ?_, ?_⟩
  · rintro x rfl
    obtain ⟨_, hx⟩ := exists_of_optional hlower
    exact fits_of_amount? hx
  · rintro x rfl
    obtain ⟨_, hx⟩ := exists_of_optional hupper
    exact fits_of_amount? hx

theorem SupplyRow.inRange_of_record {header record : List String} {row : SupplyRow}
    (h : SupplyRow.ofRecord header record = .ok row) : row.InRange := by
  obtain ⟨node, hnode, h⟩ := bind_eq_ok.mp h
  obtain ⟨supply, hsupply, h⟩ := bind_eq_ok.mp h
  cases h
  obtain ⟨_, hnode⟩ := exists_of_required hnode
  obtain ⟨_, hsupply⟩ := exists_of_required hsupply
  exact ⟨lt_of_count? hnode, fits_of_amount? hsupply⟩

theorem exists_of_mem_mapM {α β ε : Type} {f : α → Except ε β} {xs : List α} {ys : List β}
    (h : xs.mapM f = .ok ys) : ∀ y ∈ ys, ∃ x ∈ xs, f x = .ok y := by
  induction xs generalizing ys with
  | nil =>
      cases h
      simp
  | cons x xs ih =>
      rw [List.mapM_cons] at h
      obtain ⟨y, hfx, h⟩ := bind_eq_ok.mp h
      obtain ⟨ys, hys, h⟩ := bind_eq_ok.mp h
      cases h
      intro z hz
      rcases List.mem_cons.mp hz with rfl | hz
      · exact ⟨x, List.mem_cons_self .., hfx⟩
      · obtain ⟨x', hx', hfx'⟩ := ih hys z hz
        exact ⟨x', List.mem_cons_of_mem _ hx', hfx'⟩

/-- Every row of a file has been made of one of its records. -/
theorem exists_record_of_load {α : Type} {files : Files}
    {ofRecord : List String → List String → Except RowError α} {path : String} {read : List α}
    (h : load files ofRecord path = .ok read) :
    ∀ row ∈ read, ∃ header record, ofRecord header record = .ok row := by
  unfold load at h
  split at h
  · cases h
  · rename_i text _
    have hrows : rows ofRecord text = .ok read := by
      cases hrows : rows ofRecord text with
      | error cause =>
          rw [hrows] at h
          cases h
      | ok read' =>
          rw [hrows] at h
          cases h
          rfl
    unfold rows at hrows
    split at hrows
    · cases hrows
      simp
    · rename_i header records _
      intro row hrow
      obtain ⟨record, -, hrecord⟩ := exists_of_mem_mapM hrows row hrow
      split at hrecord
      · exact ⟨header, record, hrecord⟩
      · cases hrecord

/-! ## Arguments -/

/-- 64 bits hold the number of nodes that has been given, if one has. -/
def Draft.InRange (d : Draft) : Prop := ∀ n, d.nodes = some n → n < unsignedBound

theorem Draft.InRange.set? {d d' : Draft} {name value : String} (h : d.InRange)
    (hset : d.set? name value = some d') : d'.InRange := by
  unfold Draft.set? at hset
  split at hset
  case h_3 =>
    obtain ⟨nodes, honce, rfl⟩ := Option.map_eq_some_iff.mp hset
    rintro n rfl
    unfold once at honce
    split at honce
    · cases honce
    · obtain ⟨m, hm, hsome⟩ := Option.map_eq_some_iff.mp honce
      cases hsome
      exact lt_of_number? hm
  case h_11 => cases hset
  all_goals
    obtain ⟨_, -, rfl⟩ := Option.map_eq_some_iff.mp hset
    exact h

theorem Draft.InRange.set {d d' : Draft} {name value : String} (h : d.InRange)
    (hset : d.set name value = .ok d') : d'.InRange := by
  unfold Draft.set at hset
  split at hset
  · rename_i hset?
    cases hset
    exact h.set? hset?
  · cases hset

theorem Draft.InRange.readArguments {d d' : Draft} {args : List String} (h : d.InRange)
    (hread : readArguments d args = .ok d') : d'.InRange := by
  fun_induction CommandLine.readArguments d args with
  | case1 =>
      cases hread
      exact h
  | case4 =>
      cases hread
      exact h
  | case6 _ _ _ _ _ _ ih =>
      obtain ⟨next, hset, hread⟩ := bind_eq_ok.mp hread
      exact ih next (h.set hset) hread
  | case8 _ _ _ _ _ _ _ ih =>
      obtain ⟨next, hset, hread⟩ := bind_eq_ok.mp hread
      exact ih next (h.set hset) hread
  | _ => cases hread

/-- 64 bits hold the number of nodes of options. -/
theorem nodes_lt_of_ofArguments {args : List String} {o : Options}
    (h : Options.ofArguments args = .ok o) : ∀ n, o.nodes = some n → n < unsignedBound := by
  obtain ⟨d, hread, h⟩ := bind_eq_ok.mp h
  have hrange : d.InRange := Draft.InRange.readArguments (fun _ hn => by cases hn) hread
  split at h
  · cases h
    exact hrange
  · cases h

/-! ## The problem -/

namespace Problem

/-- What is known of a problem that has been read. -/
structure Loaded (p : Problem) : Prop where
  arcs : ∀ row ∈ p.arcs, row.InRange
  supplies : ∀ row ∈ p.supplies, row.InRange
  indices_lt : ∀ i ∈ indices p.arcs p.supplies, i < p.nodes
  nodes_lt : p.nodes < unsignedBound

/-- A number that occurs in the arcs or in the supplies. -/
theorem mem_indices {i : Nat} {arcs : List ArcRow} {supplies : List SupplyRow} :
    i ∈ indices arcs supplies ↔
      (∃ row ∈ arcs, i = row.tail ∨ i = row.head) ∨ ∃ row ∈ supplies, i = row.node := by
  simp [indices, eq_comm]

section Seen

variable {arcs : List ArcRow} {supplies : List SupplyRow} {n : Nat}

/-- The nodes that occur have been counted. -/
theorem lt_of_seen (h : seen arcs supplies = .ok n) :
    (∀ i ∈ indices arcs supplies, i < n) ∧ n < unsignedBound := by
  unfold seen at h
  split at h
  · rename_i hnone
    cases h
    rw [List.max?_eq_none_iff.mp hnone]
    exact ⟨by simp, by decide⟩
  · rename_i largest hlargest
    split at h <;> cases h
    exact ⟨fun i hi => Nat.lt_succ_of_le ((List.max?_eq_some_iff.mp hlargest).2 i hi), ‹_›⟩

/-- They cannot be counted exactly if the largest number that 64 bits hold, or a larger one, is one of
them. -/
theorem seen_eq_overflow_iff : seen arcs supplies = .error .overflow ↔
    ∃ i ∈ indices arcs supplies, unsignedBound ≤ i + 1 := by
  unfold seen
  split
  · rename_i hnone
    simp [List.max?_eq_none_iff.mp hnone]
  · rename_i largest hlargest
    obtain ⟨hmem, hle⟩ := List.max?_eq_some_iff.mp hlargest
    split
    · refine iff_of_false nofun ?_
      rintro ⟨i, hi, hbound⟩
      have := hle i hi
      omega
    · exact iff_of_true rfl ⟨largest, hmem, by omega⟩

end Seen

/-- A problem has the rows of the files, and enough nodes. -/
theorem load_eq_ok {files : Files} {o : Options} {p : Problem} (h : load files o = .ok p) :
    ∃ arcs supplies n, CommandLine.load files ArcRow.ofRecord o.arcs = .ok arcs ∧
      (∀ row ∈ supplies, ∃ path, CommandLine.load files SupplyRow.ofRecord path = .ok supplies) ∧
      seen arcs supplies = .ok n ∧ n ≤ o.nodes.getD n ∧
      p = { nodes := o.nodes.getD n, arcs, supplies } := by
  obtain ⟨arcs, harcs, h⟩ := bind_eq_ok.mp h
  obtain ⟨supplies, hsupplies, h⟩ : ∃ supplies,
      (∀ row ∈ supplies, ∃ path, CommandLine.load files SupplyRow.ofRecord path = .ok supplies) ∧
      ((seen arcs supplies).mapError Failure.interrupted >>= fun n =>
        if o.nodes.getD n < n then throw (.tooFewNodes (o.nodes.getD n) (n - 1))
        else pure { nodes := o.nodes.getD n, arcs, supplies }) =
          (.ok p : Except Failure Problem) := by
    cases hpath : o.supplies with
    | none =>
        simp only [hpath] at h
        exact ⟨[], by simp, h⟩
    | some path =>
        simp only [hpath] at h
        obtain ⟨supplies, hsupplies, h⟩ := bind_eq_ok.mp h
        exact ⟨supplies, fun _ _ => ⟨path, hsupplies⟩, h⟩
  obtain ⟨n, hseen, h⟩ := bind_eq_ok.mp h
  split at h
  · cases h
  · cases h
    refine ⟨arcs, supplies, n, harcs, hsupplies, ?_, Nat.not_lt.mp ‹_›, rfl⟩
    cases hcount : seen arcs supplies with
    | error why =>
        rw [hcount] at hseen
        cases hseen
    | ok k =>
        rw [hcount] at hseen
        cases hseen
        rfl

theorem loaded {args : List String} {files : Files} {o : Options} {p : Problem}
    (hargs : Options.ofArguments args = .ok o) (h : load files o = .ok p) : p.Loaded := by
  obtain ⟨arcs, supplies, n, harcs, hsupplies, hseen, hnodes, rfl⟩ := load_eq_ok h
  obtain ⟨hindices, hn⟩ := lt_of_seen hseen
  refine ⟨fun row hrow => ?_, fun row hrow => ?_, fun i hi => ?_, ?_⟩
  · obtain ⟨_, _, hrecord⟩ := exists_record_of_load harcs row hrow
    exact ArcRow.inRange_of_record hrecord
  · obtain ⟨path, hload⟩ := hsupplies row hrow
    obtain ⟨_, _, hrecord⟩ := exists_record_of_load hload row hrow
    exact SupplyRow.inRange_of_record hrecord
  · exact Nat.lt_of_lt_of_le (hindices i hi) hnodes
  · show o.nodes.getD n < unsignedBound
    cases hgiven : o.nodes with
    | none => exact hn
    | some given => exact nodes_lt_of_ofArguments hargs given hgiven

end Problem

end NetworkFlow.CommandLine
