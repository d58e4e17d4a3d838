import Mathlib.Data.List.Induction
import Mathlib.Data.List.Nodup
import Mathlib.Logic.Function.Basic
import NetworkFlow.Proofs.HandleTable.Slots

/-!
# A handle table is a finite map

A `History` is a table with the operations performed on it, from an empty table on, and what they
answered. It says which handles were handed out, what was last written under each of them (`current`)
and how often a slot was freed. The table reads as this map says, whatever handles the operations
name: current ones, stale ones, whose slot may be in use again, or such that were never handed out.

Slots and generations are numbered by 32 bits. So this is said of histories in which no slot is
freed so often that its generation runs over, and in which there are no more slots than numbers for
them. A slot is only added when all others are filled, so the second means that no more values than
that are held at a time. Without it two values are handed out under one handle (`handedOut_fill`).

## Main results

* `Kept.step`: what every operation keeps.
* `acts_as_map`: a table reads as the finite map that its history describes.
-/

namespace NetworkFlow

namespace HandleTable

/-- An operation of a table. -/
inductive Operation (α : Type) where
  | insert (value : α)
  | get (h : Handle)
  /-- Reads a value and writes another one in its place. -/
  | modify (h : Handle) (change : α → α)
  | remove (h : Handle)
  | contains (h : Handle)
  | size
  | entries

/-- What an operation answers. -/
inductive Answer (α : Type) where
  | handle (h : Handle)
  | value (value : Except Error α)
  | flag (flag : Bool)
  | count (count : Nat)
  | entries (entries : List (Handle × α))

variable {α : Type}

/-- Performs an operation. -/
def perform (t : HandleTable α) : Operation α → HandleTable α × Answer α
  | .insert value => ((t.insert value).1, .handle (t.insert value).2)
  | .get h => (t, .value (t.get h))
  | .modify h change =>
      match t.get h with
      | .ok value => (t.set h (change value), .value (.ok value))
      | .error cause => (t, .value (.error cause))
  | .remove h =>
      match t.remove h with
      | .ok (t', value) => (t', .value (.ok value))
      | .error cause => (t, .value (.error cause))
  | .contains h => (t, .flag (t.contains h))
  | .size => (t, .count t.size)
  | .entries => (t, .entries t.toList)

/-- A table with the operations that made it from an empty one, and their answers. -/
structure History (α : Type) where
  table : HandleTable α := .empty
  events : List (Operation α × Answer α) := []

namespace History

/-- One more operation. -/
def step (s : History α) (op : Operation α) : History α where
  table := (s.table.perform op).1
  events := s.events ++ [(op, (s.table.perform op).2)]

/-- The history of operations performed one after the other. -/
def ofOperations (ops : List (Operation α)) : History α := ops.foldl step {}

/-- The handle that an operation answered. -/
def handle? : Operation α × Answer α → Option Handle
  | (_, .handle h) => some h
  | _ => none

/-- The handles that were handed out, in order. -/
def handedOut (s : History α) : List Handle := s.events.filterMap handle?

/-- The operation freed a slot. -/
def Frees (index : UInt32) : Operation α × Answer α → Bool
  | (.remove h, .value (.ok _)) => h.index = index
  | _ => false

/-- How often a slot was freed. -/
def frees (s : History α) (index : UInt32) : Nat := s.events.countP (Frees index)

/-- What an operation writes. -/
def write (current : Handle → Option α) : Operation α × Answer α → Handle → Option α
  | (.insert value, .handle h) => Function.update current h (some value)
  | (.modify h change, _) => Function.update current h ((current h).map change)
  | (.remove h, _) => Function.update current h none
  | _ => current

/-- What was last written under each handle, if it was not removed since. -/
def current (s : History α) : Handle → Option α := s.events.foldl write fun _ => none

/-- No slot was freed so often that its generation ran over. -/
def Fresh (s : History α) : Prop := ∀ index, s.frees index < 4294967295

/-- There are no more slots than numbers for them. -/
def Numbered (s : History α) : Prop := s.table.slots.size ≤ 4294967296

/-- The table reads as the map that the history describes. -/
structure ActsAsMap (s : History α) : Prop where
  /-- A handle yields the value last written under it, any other one is refused. -/
  get : ∀ h, s.table.get h = match s.current h with
    | some value => .ok value
    | none => .error .invalidHandle
  contains : ∀ h, s.table.contains h = (s.current h).isSome
  /-- No handle is handed out twice. -/
  distinct : s.handedOut.Nodup
  nonzero : ∀ h ∈ s.handedOut, h.toRaw ≠ 0
  /-- A number that was never handed out is refused. -/
  unknown : ∀ raw, Handle.ofRaw raw ∉ s.handedOut →
    s.table.get (.ofRaw raw) = .error .invalidHandle
  /-- What is listed are the handles that are alive, each of them once, with their values. -/
  listed : ∀ h value, (h, value) ∈ s.table.toList ↔ s.current h = some value
  listed_once : (s.table.toList.map (·.1)).Nodup
  size : s.table.size = s.table.toList.length
  /-- The chain of free slots comes to an end, passes no slot twice, and passes the free slots. -/
  chain : ∃ chain, Chain s.table.slots s.table.free chain ∧ chain.Nodup ∧
    ∀ index, s.table.Vacant index ↔ ∃ i ∈ chain, i.toNat = index
  /-- The slot that is filled next is free. -/
  next_vacant : ∀ index, s.table.free = some index → s.table.Vacant index.toNat

/-- The table is sound, the generation of a slot counts how often it was freed, and the handles and
values are those that the history describes. -/
structure Kept (s : History α) : Prop where
  sound : s.table.Sound
  generation : ∀ (index : UInt32) (slot : Slot α), s.table.slots[index.toNat]? = some slot →
    slot.generation.toNat = s.frees index + 1
  issued : ∀ h, s.table.Issued h ↔ h ∈ s.handedOut
  distinct : s.handedOut.Nodup
  /-- A slot that is not there yet was never freed. -/
  unused : ∀ index : UInt32, s.table.slots.size ≤ index.toNat → s.frees index = 0
  current : ∀ h, s.table.get? h = s.current h

variable {s : History α} {op : Operation α} {h : Handle} {value : α}

theorem ofOperations_append (ops : List (Operation α)) (op : Operation α) :
    ofOperations (ops ++ [op]) = (ofOperations ops).step op := by
  simp [ofOperations]

theorem frees_step (s : History α) (op : Operation α) (index : UInt32) :
    (s.step op).frees index =
      s.frees index + if Frees index (op, (s.table.perform op).2) then 1 else 0 := by
  simp [frees, step]

theorem handedOut_step (s : History α) (op : Operation α) :
    (s.step op).handedOut = s.handedOut ++ (handle? (op, (s.table.perform op).2)).toList := by
  cases hhandle : handle? (op, (s.table.perform op).2) <;> simp [handedOut, step, hhandle]

theorem current_step (s : History α) (op : Operation α) :
    (s.step op).current = write s.current (op, (s.table.perform op).2) := by
  simp [current, step]

theorem frees_step_of_not (hfrees : ∀ index, Frees index (op, (s.table.perform op).2) = false)
    (index : UInt32) : (s.step op).frees index = s.frees index := by
  rw [frees_step, hfrees]
  rfl

theorem handedOut_step_of_none (hhandle : handle? (op, (s.table.perform op).2) = none) :
    (s.step op).handedOut = s.handedOut := by
  rw [handedOut_step, hhandle]
  exact List.append_nil _

/-! ## What every operation keeps -/

/-- Slots are never given up. -/
theorem size_slots_perform (t : HandleTable α) (op : Operation α) :
    t.slots.size ≤ (t.perform op).1.slots.size := by
  cases op with
  | insert value =>
      show t.slots.size ≤ (t.insert value).1.slots.size
      have hpush : t.slots.size ≤ (t.push value).1.slots.size := by simp [push]
      unfold insert
      split
      · exact hpush
      · split
        · simp
        · exact hpush
  | modify h change =>
      simp only [perform]
      split
      · unfold set
        split <;> simp
      · exact Nat.le_refl _
  | remove h =>
      simp only [perform]
      split
      · rename_i hremove
        obtain ⟨-, rfl⟩ := remove_eq_ok hremove
        simp
      · exact Nat.le_refl _
  | _ => exact Nat.le_refl _

theorem Fresh.of_step (h : (s.step op).Fresh) : s.Fresh := by
  intro index
  have hfrees := h index
  rw [frees_step] at hfrees
  omega

theorem Numbered.of_step (h : (s.step op).Numbered) : s.Numbered :=
  Nat.le_trans (size_slots_perform _ op) h

theorem kept_empty : ({} : History α).Kept where
  sound := sound_empty
  generation index slot hslot := by simp [empty] at hslot
  issued h := by simp [not_issued_empty, handedOut]
  distinct := List.nodup_nil
  unused index _ := rfl
  current h := rfl

/-- An operation that leaves the table as it is keeps what is kept, if nothing is to be written. -/
theorem Kept.unchanged (hs : s.Kept) (htable : (s.table.perform op).1 = s.table)
    (hhandle : handle? (op, (s.table.perform op).2) = none)
    (hfrees : ∀ index, Frees index (op, (s.table.perform op).2) = false)
    (hwrite : write s.current (op, (s.table.perform op).2) = s.current) : (s.step op).Kept := by
  have hissued := handedOut_step_of_none hhandle
  have hcount := frees_step_of_not hfrees
  have htable' : (s.step op).table = s.table := htable
  constructor
  case sound =>
    rw [htable']
    exact hs.sound
  case generation =>
    intro index slot hslot
    rw [hcount]
    rw [htable'] at hslot
    exact hs.generation index slot hslot
  case issued =>
    rw [htable', hissued]
    exact hs.issued
  case distinct =>
    rw [hissued]
    exact hs.distinct
  case unused =>
    intro index hindex
    rw [hcount]
    rw [htable'] at hindex
    exact hs.unused index hindex
  case current =>
    rw [htable', current_step, hwrite]
    exact hs.current

/-- The handle that an insertion answers is a new one, and no other handle sees it. -/
theorem Kept.insert (hs : s.Kept) (hnumbered : (s.step (.insert value)).Numbered) :
    (s.step (.insert value)).Kept := by
  have hroom : s.table.HasRoom := hasRoom_of_insert hnumbered
  have hissued : (s.step (.insert value)).handedOut = s.handedOut ++ [(s.table.insert value).2] :=
    handedOut_step s _
  have hfrees : ∀ index, (s.step (.insert value)).frees index = s.frees index :=
    frees_step_of_not fun _ => rfl
  have hnew := hs.sound.not_issued_insert hroom value
  constructor
  case sound => exact hs.sound.insert value
  case generation =>
    intro index slot hslot
    rw [hfrees]
    rcases hs.sound.generation_insert hslot with ⟨hsize, hfirst⟩ | ⟨before, hbefore, hsame⟩
    · -- A slot that is made now has the first generation, and was never freed.
      rw [hs.unused index (by omega), hfirst]
      rfl
    · rw [← hsame]
      exact hs.generation index before hbefore
  case issued =>
    intro h
    rw [hissued, List.mem_append, List.mem_singleton, ← hs.issued, or_comm]
    exact hs.sound.issued_insert_iff hroom value
  case distinct =>
    rw [hissued, List.nodup_append]
    refine ⟨hs.distinct, List.nodup_singleton _, fun h hh h' hh' heq => hnew ?_⟩
    rw [← List.mem_singleton.mp hh', ← heq]
    exact (hs.issued h).mpr hh
  case unused =>
    intro index hindex
    rw [hfrees]
    exact hs.unused index (Nat.le_trans (size_slots_perform _ _) hindex)
  case current =>
    intro h
    rw [current_step]
    show (s.table.insert value).1.get? h =
      Function.update s.current (s.table.insert value).2 (some value) h
    by_cases heq : h = (s.table.insert value).2
    · rw [heq, hs.sound.get?_insert_self hroom, Function.update_self]
    · rw [Function.update_of_ne heq, ← hs.current, hs.sound.get?_insert_of_ne hroom value heq]

/-- A value that is replaced is read under its handle. -/
theorem Kept.modify (hs : s.Kept) (h : Handle) (change : α → α) :
    (s.step (.modify h change)).Kept := by
  cases hget : s.table.get h with
  | error cause =>
      have hnone : s.current h = none := (hs.current h).symm.trans (get_eq_error.mp hget).2
      refine hs.unchanged ?_ ?_ (fun _ => ?_) ?_
      all_goals simp [perform, hget, handle?, Frees, write, hnone, Function.update_eq_self_iff]
  | ok value =>
      have hperform : s.table.perform (.modify h change) =
          (s.table.set h (change value), .value (.ok value)) := by
        simp [perform, hget]
      have hvalue := get_eq_ok.mp hget
      have htable : (s.step (.modify h change)).table = s.table.set h (change value) :=
        congrArg Prod.fst hperform
      have hissued : (s.step (.modify h change)).handedOut = s.handedOut :=
        handedOut_step_of_none (by rw [hperform]; rfl)
      have hfrees : ∀ index, (s.step (.modify h change)).frees index = s.frees index :=
        frees_step_of_not fun _ => by rw [hperform]; rfl
      constructor
      case sound =>
        rw [htable]
        exact hs.sound.set h _
      case generation =>
        intro index slot hi
        rw [htable] at hi
        obtain ⟨before, hbefore, hsame⟩ := generation_set hvalue hi
        rw [hfrees, ← hsame]
        exact hs.generation index before hbefore
      case issued =>
        intro h'
        rw [htable, hissued, issued_set_iff]
        exact hs.issued h'
      case distinct =>
        rw [hissued]
        exact hs.distinct
      case unused =>
        intro index hindex
        rw [hfrees]
        exact hs.unused index (Nat.le_trans (size_slots_perform _ _) hindex)
      case current =>
        intro h'
        have hcontains := contains_iff.mpr ⟨value, hvalue⟩
        rw [htable, current_step, hperform, get?_set]
        show _ = Function.update s.current h ((s.current h).map change) h'
        rw [← hs.current h, hvalue]
        by_cases heq : h' = h
        · simp [heq, hcontains]
        · rw [if_neg fun hh => heq hh.1, Function.update_of_ne heq]
          exact hs.current h'

section Remove

variable {t' : HandleTable α}

/-- A removal frees the slot of its handle, if it is not refused. -/
theorem frees_remove (hremove : s.table.remove h = .ok (t', value)) (index : UInt32) :
    (s.step (.remove h)).frees index = s.frees index + if h.index = index then 1 else 0 := by
  have hanswer : (s.table.perform (.remove h)).2 = .value (.ok value) := by simp [perform, hremove]
  rw [frees_step, hanswer]
  simp [Frees]

theorem Kept.generation_of_remove (hs : s.Kept) (hremove : s.table.remove h = .ok (t', value)) :
    h.generation.toNat = s.frees h.index + 1 :=
  hs.generation h.index _ (slot_of_get? (remove_eq_ok hremove).1)

/-- The generation of a value that is removed is not the last one. -/
theorem Kept.lt_of_remove (hs : s.Kept) (hremove : s.table.remove h = .ok (t', value))
    (hfresh : (s.step (.remove h)).Fresh) : h.generation.toNat + 1 < 4294967296 := by
  have hlt := hfresh h.index
  rw [frees_remove hremove, if_pos rfl] at hlt
  have hgeneration := hs.generation_of_remove hremove
  omega

/-- A slot that is freed has its next generation, the others keep theirs. -/
theorem Kept.generation_remove (hs : s.Kept) (hremove : s.table.remove h = .ok (t', value))
    (hfresh : (s.step (.remove h)).Fresh) {index : UInt32} {slot : Slot α}
    (hslot : t'.slots[index.toNat]? = some slot) :
    slot.generation.toNat = (s.step (.remove h)).frees index + 1 := by
  obtain ⟨hvalue, heq⟩ := remove_eq_ok hremove
  rw [heq] at hslot
  replace hslot := (getElem?_write (slot_of_get? hvalue) _ _).symm.trans hslot
  rw [frees_remove hremove]
  split at hslot
  · rename_i hindex
    cases hslot
    rw [UInt32.toNat_inj] at hindex
    rw [hindex, if_pos rfl]
    show (nextGeneration h.generation).toNat = _
    rw [toNat_nextGeneration (hs.lt_of_remove hremove hfresh), hs.generation_of_remove hremove]
  · rename_i hindex
    rw [if_neg fun heq => hindex (by rw [heq])]
    exact hs.generation index slot hslot

/-- A value that is removed is gone, and its handle stays handed out. -/
theorem Kept.removed (hs : s.Kept) (hremove : s.table.remove h = .ok (t', value))
    (hfresh : (s.step (.remove h)).Fresh) : (s.step (.remove h)).Kept := by
  have hperform : s.table.perform (.remove h) = (t', .value (.ok value)) := by
    simp [perform, hremove]
  have htable : (s.step (.remove h)).table = t' := congrArg Prod.fst hperform
  have hissued : (s.step (.remove h)).handedOut = s.handedOut :=
    handedOut_step_of_none (by rw [hperform]; rfl)
  constructor
  case sound =>
    rw [htable]
    exact hs.sound.remove hremove
  case generation =>
    intro index slot hslot
    rw [htable] at hslot
    exact hs.generation_remove hremove hfresh hslot
  case issued =>
    intro h'
    rw [htable, hissued, issued_remove_iff hremove (hs.lt_of_remove hremove hfresh)]
    exact hs.issued h'
  case distinct =>
    rw [hissued]
    exact hs.distinct
  case unused =>
    -- The slot that is freed is there, so it is not the one in question.
    intro index hindex
    have hle := Nat.le_trans (size_slots_perform s.table (.remove h)) hindex
    obtain ⟨hbound, -⟩ := Array.getElem?_eq_some_iff.mp (slot_of_get? (remove_eq_ok hremove).1)
    rw [frees_remove hremove, if_neg fun heq => by rw [heq] at hbound; omega]
    exact hs.unused index hle
  case current =>
    intro h'
    rw [htable, current_step, hperform, get?_remove hremove]
    show _ = Function.update s.current h none h'
    rw [hs.current, Function.update_apply]

theorem Kept.remove (hs : s.Kept) (h : Handle) (hfresh : (s.step (.remove h)).Fresh) :
    (s.step (.remove h)).Kept := by
  cases hremove : s.table.remove h with
  | error cause =>
      have hnone : s.current h = none := (hs.current h).symm.trans (remove_eq_error.mp hremove).2
      refine hs.unchanged ?_ ?_ (fun _ => ?_) ?_
      all_goals simp [perform, hremove, handle?, Frees, write, hnone, Function.update_eq_self_iff]
  | ok left => exact hs.removed hremove hfresh

end Remove

/-- Every operation keeps what is kept, as long as numbers are left. -/
theorem Kept.step (hs : s.Kept) (hfresh : (s.step op).Fresh) (hnumbered : (s.step op).Numbered) :
    (s.step op).Kept := by
  cases op with
  | insert value => exact hs.insert hnumbered
  | modify h change => exact hs.modify h change
  | remove h => exact hs.remove h hfresh
  | _ => exact hs.unchanged rfl rfl (fun _ => rfl) rfl

theorem kept_ofOperations (ops : List (Operation α)) (hfresh : (ofOperations ops).Fresh)
    (hnumbered : (ofOperations ops).Numbered) : (ofOperations ops).Kept := by
  induction ops using List.reverseRecOn with
  | nil => exact kept_empty
  | append_singleton ops op ih =>
      rw [ofOperations_append] at hfresh hnumbered ⊢
      exact (ih hfresh.of_step hnumbered.of_step).step hfresh hnumbered

/-! ## What a history says -/

theorem Kept.get_eq (hs : s.Kept) (h : Handle) :
    s.table.get h = match s.current h with
      | some value => .ok value
      | none => .error .invalidHandle := by
  cases hcurrent : s.current h <;> simp [HandleTable.get, hs.current, hcurrent]

theorem Kept.actsAsMap (hs : s.Kept) (hnumbered : s.Numbered) : s.ActsAsMap where
  get := hs.get_eq
  contains h := by rw [HandleTable.contains, hs.current]
  distinct := hs.distinct
  nonzero h hmem hzero := by
    obtain ⟨-, -, hpos, -⟩ := (hs.issued h).mpr hmem
    have hraw := h.toNat_toRaw
    rw [hzero] at hraw
    simp only [UInt64.toNat_zero] at hraw
    omega
  unknown raw hraw := by
    have hnone := hs.sound.get?_eq_none fun hissued => hraw ((hs.issued _).mp hissued)
    unfold HandleTable.get
    rw [hnone]
  listed h value := by rw [mem_toList_iff hnumbered, hs.current]
  listed_once := nodup_toList hnumbered
  size := hs.sound.size_eq_length
  chain := hs.sound.chain
  next_vacant _ := hs.sound.vacant_free

/-- An operation that is refused changes nothing. -/
theorem perform_of_refused {t : HandleTable α} {cause : Error}
    (hrefused : (t.perform op).2 = .value (.error cause)) :
    cause = .invalidHandle ∧ (t.perform op).1 = t := by
  cases op with
  | get h =>
      simp only [perform, Answer.value.injEq] at hrefused
      exact ⟨(get_eq_error.mp hrefused).1, rfl⟩
  | modify h change =>
      cases hfound : t.get h with
      | ok value => simp [perform, hfound] at hrefused
      | error cause' =>
          simp only [perform, hfound, Answer.value.injEq, Except.error.injEq] at hrefused ⊢
          exact ⟨hrefused ▸ (get_eq_error.mp hfound).1, trivial⟩
  | remove h =>
      cases hfound : t.remove h with
      | ok left => simp [perform, hfound] at hrefused
      | error cause' =>
          simp only [perform, hfound, Answer.value.injEq, Except.error.injEq] at hrefused ⊢
          exact ⟨hrefused ▸ (remove_eq_error.mp hfound).1, trivial⟩
  | _ => cases hrefused

/-- A handle whose value is gone never yields a value again. -/
theorem Kept.gone (hs : s.Kept) (hfresh : (s.step op).Fresh) (hnumbered : (s.step op).Numbered)
    (hmem : h ∈ s.handedOut) (hgone : s.current h = none) :
    h ∈ (s.step op).handedOut ∧ (s.step op).current h = none := by
  have hdistinct := (hs.step hfresh hnumbered).distinct
  rw [handedOut_step] at hdistinct ⊢
  refine ⟨List.mem_append_left _ hmem, ?_⟩
  rw [current_step]
  cases op with
  | insert value =>
      have hne : h ≠ (s.table.insert value).2 := by
        rintro rfl
        exact (List.nodup_append.mp hdistinct).2.2 _ hmem _ (by simp [perform, handle?]) rfl
      exact (Function.update_of_ne hne _ _).trans hgone
  | modify h' change =>
      show Function.update s.current h' ((s.current h').map change) h = none
      by_cases heq : h = h'
      · rw [← heq, Function.update_self, hgone]
        rfl
      · rw [Function.update_of_ne heq, hgone]
  | remove h' =>
      show Function.update s.current h' none h = none
      rw [Function.update_apply, hgone, ite_self]
  | _ => exact hgone

/-- After any operations, of any handles, that free no slot 2 ^ 32 - 1 times and make no more than
2 ^ 32 slots, a table reads as the finite map that its history describes. An operation that is refused
leaves the table as it is, and a handle whose value is gone is refused ever after, however often its
slot is used again. -/
theorem acts_as_map (ops : List (Operation α)) (hfresh : (ofOperations ops).Fresh)
    (hnumbered : (ofOperations ops).Numbered) :
    (ofOperations ops).ActsAsMap ∧
      (∀ op cause, ((ofOperations ops).table.perform op).2 = .value (.error cause) →
        cause = .invalidHandle ∧
          ((ofOperations ops).table.perform op).1 = (ofOperations ops).table) ∧
      ∀ before after, ops = before ++ after → ∀ h ∈ (ofOperations before).handedOut,
        (ofOperations before).current h = none →
          (ofOperations ops).table.get h = .error .invalidHandle := by
  have hkept := kept_ofOperations ops hfresh hnumbered
  refine ⟨hkept.actsAsMap hnumbered, fun op cause => perform_of_refused, ?_⟩
  rintro before after rfl h hmem hgone
  suffices hlast : h ∈ (ofOperations (before ++ after)).handedOut ∧
      (ofOperations (before ++ after)).current h = none by
    rw [hkept.get_eq, hlast.2]
  clear hkept
  induction after using List.reverseRecOn with
  | nil => exact ⟨by rwa [List.append_nil], by rwa [List.append_nil]⟩
  | append_singleton after op ih =>
      rw [← List.append_assoc, ofOperations_append] at hfresh hnumbered ⊢
      obtain ⟨hmem, hgone⟩ := ih hfresh.of_step hnumbered.of_step
      exact (kept_ofOperations _ hfresh.of_step hnumbered.of_step).gone hfresh hnumbered hmem hgone

/-- A slot is used again while its old handle is still tried. -/
def reuse : List (Operation Nat) :=
  [.insert 7, .insert 8, .remove ⟨0, 1⟩, .insert 9, .remove ⟨0, 1⟩, .modify ⟨0, 2⟩ (· + 1)]

theorem acts_as_map_reuse :
    (ofOperations reuse).Fresh ∧ (ofOperations reuse).Numbered ∧
      ((ofOperations reuse).ActsAsMap ∧
      (∀ op cause, ((ofOperations reuse).table.perform op).2 = .value (.error cause) →
        cause = .invalidHandle ∧
          ((ofOperations reuse).table.perform op).1 = (ofOperations reuse).table) ∧
      ∀ before after, reuse = before ++ after → ∀ h ∈ (ofOperations before).handedOut,
        (ofOperations before).current h = none →
          (ofOperations reuse).table.get h = .error .invalidHandle) := by
  have hfresh : (ofOperations reuse).Fresh :=
    fun index => Nat.lt_of_le_of_lt List.countP_le_length (by decide)
  have hnumbered : (ofOperations reuse).Numbered := show Array.size _ ≤ _ by decide
  exact ⟨hfresh, hnumbered, acts_as_map reuse hfresh hnumbered⟩

example : (ofOperations reuse).table.get? ⟨0, 2⟩ = some 10 ∧
    (ofOperations reuse).table.get? ⟨0, 1⟩ = none := by decide

/-! ## More slots than numbers -/

/-- Nothing is done but putting in values. -/
def fill (count : Nat) : List (Operation Unit) := List.replicate count (.insert ())

/-- The handles that are handed out are numbered by 32 bits, however many there are. -/
theorem handedOut_fill (count : Nat) :
    (ofOperations (fill count)).table.free = none ∧
      (ofOperations (fill count)).table.slots.size = count ∧
      (∀ index, (ofOperations (fill count)).frees index = 0) ∧
      (ofOperations (fill count)).handedOut =
        (List.range count).map fun i => (⟨UInt32.ofNat i, 1⟩ : Handle) := by
  induction count with
  | zero => exact ⟨rfl, rfl, fun _ => rfl, rfl⟩
  | succ count ih =>
      obtain ⟨hfree, hsize, hfrees, hhandles⟩ := ih
      have hfill : fill (count + 1) = fill count ++ [.insert ()] := List.replicate_succ'
      have hpush : (ofOperations (fill count)).table.insert () =
          (ofOperations (fill count)).table.push () := insert_eq_push hfree ()
      have hslots : ((ofOperations (fill count)).table.insert ()).1.slots.size = count + 1 := by
        rw [hpush]
        exact (Array.size_push _).trans (congrArg (· + 1) hsize)
      have hhandle : ((ofOperations (fill count)).table.insert ()).2 = ⟨UInt32.ofNat count, 1⟩ := by
        rw [hpush]
        exact congrArg (fun size => (⟨UInt32.ofNat size, 1⟩ : Handle)) hsize
      rw [hfill, ofOperations_append]
      refine ⟨?_, hslots, fun index => ?_, ?_⟩
      · show ((ofOperations (fill count)).table.insert ()).1.free = none
        rw [hpush]
        exact hfree
      · rw [frees_step, hfrees]
        rfl
      · rw [handedOut_step, hhandles, List.range_succ, List.map_append]
        exact congrArg (_ ++ [·]) hhandle

/-- One value more than there are numbers for slots is handed out under the handle of the first,
with no slot freed at all. -/
theorem handles_repeat :
    (ofOperations (fill 4294967297)).Fresh ∧
      ¬ (ofOperations (fill 4294967297)).handedOut.Nodup := by
  obtain ⟨-, -, hfrees, hhandles⟩ := handedOut_fill 4294967297
  refine ⟨fun index => by rw [hfrees]; decide, fun hnodup => ?_⟩
  rw [hhandles] at hnodup
  have hsame := List.inj_on_of_nodup_map hnodup (List.mem_range.mpr (by decide : 0 < 4294967297))
    (List.mem_range.mpr (by decide : 4294967296 < 4294967297)) (by decide)
  exact absurd hsame (by decide)

end History

end HandleTable

end NetworkFlow
