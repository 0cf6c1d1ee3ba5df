import WafProxy.TableRun
import WafProxy.Worker

/-
  The worker's table of connections, and the table of addresses behind it

  The worker's modules keep the connections in the slots. In memory the slots
  hold addresses, and a connection is cleared and added right after
  `mempool_get` gave its address, which no slot holds then.

  What is proved:
    1. `addSlot_map` — the ring search sees which slots are empty, not what the
       others hold.
    2. `Alone.call`, `records_call` — one call keeps every connection alone, and
       does to the connections behind the addresses what it does to a table of
       connections.
    3. `sesstblRun_records` — so do any calls that only add connections no slot
       holds; a lookup then answers the connection, and never fails its
       assertion (`find_records`).
-/

namespace WafProxy
namespace ConnectionTable
variable {α β : Type}

/-- The table with `f` of every stored value. -/
def mapConn (f : α → β) (t : ConnectionTable α) : ConnectionTable β :=
  { table := t.table.map (Option.map f), nfreed := t.nfreed, freeid := t.freeid }

theorem max_map (f : α → β) (t : ConnectionTable α) : (t.mapConn f).max = t.max :=
  List.length_map _

theorem findSlot_map (f : α → β) (t : ConnectionTable α) (id : Nat) :
    (t.mapConn f).findSlot id = (t.findSlot id).map f := by
  unfold findSlot mapConn
  rw [List.getElem?_map]
  cases t.table[id]? with
  | none => rfl
  | some o => rfl

theorem stGetFreeIdLoop_map (f : α → β) (t : ConnectionTable α) (fuel : Nat) : ∀ id,
    stGetFreeIdLoop (t.mapConn f) fuel id = stGetFreeIdLoop t fuel id := by
  induction fuel with
  | zero => exact fun _ => rfl
  | succ fuel ih =>
    intro id
    simp only [stGetFreeIdLoop, max_map, ih]
    generalize (if t.max ≤ id then 0 else id) = k
    have hget : (t.mapConn f).table[k]? = (t.table[k]?).map (Option.map f) := List.getElem?_map
    rw [hget]
    cases t.table[k]? with
    | none => rfl
    | some o => cases o <;> rfl

theorem addSlot_map (f : α → β) (t : ConnectionTable α) (s : α) (g : Nat → β) :
    (t.mapConn f).addSlot g = (t.addSlot fun _ => s).map fun r => (r.1,
      { table := (t.mapConn f).table.set r.1 (some (g r.1)), nfreed := t.nfreed - 1, freeid := r.1 + 1 }) := by
  have hget : (t.mapConn f).stGetFreeId = t.stGetFreeId := by
    unfold stGetFreeId
    rw [max_map, stGetFreeIdLoop_map]
    rfl
  unfold addSlot
  rw [hget]
  change (if t.nfreed < 1 then _ else _) = _
  split
  · rfl
  · cases t.stGetFreeId <;> rfl

theorem delSlot_map (f : α → β) (t : ConnectionTable α) (id : Nat) :
    (t.mapConn f).delSlot id = (t.delSlot id).mapConn f := by
  unfold delSlot
  rw [findSlot_map]
  cases t.findSlot id with
  | none => rfl
  | some s =>
    simp only [Option.map_some, mapConn, List.map_set]
    rfl

/-- Tables agree under two functions that agree on what is stored. -/
theorem mapConn_congr {f g : α → β} {t : ConnectionTable α}
    (h : ∀ id s, t.findSlot id = some s → f s = g s) : t.mapConn f = t.mapConn g := by
  unfold mapConn
  congr 1
  refine List.map_congr_left fun o ho => ?_
  obtain ⟨id, hid, rfl⟩ := List.mem_iff_getElem.mp ho
  cases hs : t.table[id] with
  | none => rfl
  | some s => exact congrArg some (h id s (by simp [findSlot, hid, hs]))

end ConnectionTable

namespace Sesstbl
open ConnectionTable
variable {P α β : Type} [DecidableEq P]

/-- A worker's use of its table: an address from the pool is cleared, given the
fields `a` and added; a connection is deleted; its fields are changed through
the address that `find` answers. -/
inductive ConnCall (P α : Type) where
  | add (s : P) (a : α)
  | del (id : Nat)
  | write (id : Nat) (a : α)

/-- The table with `a` written to the fields of `s`. -/
def withFields (t : Sesstbl P α) (s : P) (a : α) : Sesstbl P α :=
  { t with mem := Function.update t.mem s { t.mem s with fields := a } }

/-- The table with the connection at `s` cleared and its fields set to `a`. -/
def withCleared (t : Sesstbl P α) (s : P) (a : α) : Sesstbl P α :=
  { t with mem := Function.update t.mem s ⟨0, 0, a⟩ }

def call (t : Sesstbl P α) : ConnCall P α → Sesstbl P α
  | .add s a => ((t.withCleared s a).connectionTableAdd (some s)).2
  | .del id => (t.connectionTableDel id).2
  | .write id a =>
    match t.connectionTableFind id with
    | .conn s => t.withFields s a
    | _ => t

/-- The same use of a table of connections; `record` makes one of an id and the
fields. -/
def recordCall (record : Nat → α → β) (t : ConnectionTable β) : ConnCall P α → ConnectionTable β
  | .add _ a => (t.addSlot fun id => record id a).elim t Prod.snd
  | .del id => t.delSlot id
  | .write id a => t.store id (record id a)

/-- The connections behind the addresses in the slots. -/
def records (record : Nat → α → β) (t : Sesstbl P α) : ConnectionTable β :=
  t.slots.mapConn fun s => record (t.mem s).id.toNat (t.mem s).fields

/-- Each `add` is of an address that no slot holds. -/
def AddsFree : Sesstbl P α → List (ConnCall P α) → Prop
  | _, [] => True
  | t, c :: cs => (∀ s a, c = .add s a → ∀ i, t.slots.findSlot i ≠ some s) ∧ AddsFree (t.call c) cs

/-! ## Lookups -/

omit [DecidableEq P] in
theorem find_records (record : Nat → α → β) {t : Sesstbl P α} (ha : Alone t) (id : Nat) :
    (t.records record).findSlot id =
      (t.slots.findSlot id).map (fun s => record id (t.mem s).fields) ∧
    t.connectionTableFind id = (t.slots.findSlot id).elim .null .conn := by
  refine ⟨?_, by rw [ha.find, find_natCast]⟩
  rw [records, findSlot_map]
  cases hs : t.slots.findSlot id with
  | none => rfl
  | some s => simp only [Option.map_some, (ha.own id s hs).1, Int.toNat_natCast]

/-! ## One call -/

/-- What the slots and the others look like does not depend on a connection
that no slot holds. -/
theorem records_cleared (record : Nat → α → β) {t : Sesstbl P α} {s : P} (a : α)
    (hnew : ∀ i, t.slots.findSlot i ≠ some s) :
    (t.withCleared s a).records record = t.records record := by
  apply mapConn_congr
  intro i p hp
  have hps : p ≠ s := fun h => hnew i (h ▸ hp)
  simp only [withCleared, Function.update_of_ne hps]

theorem Alone.cleared {t : Sesstbl P α} (ha : Alone t) {s : P} (a : α)
    (hnew : ∀ i, t.slots.findSlot i ≠ some s) : Alone (t.withCleared s a) := by
  refine ⟨ha.once, fun i p hp => ?_⟩
  have hps : p ≠ s := fun h => hnew i (h ▸ hp)
  simp only [withCleared, Function.update_of_ne hps]
  exact ha.own i p hp

theorem Alone.withFields {t : Sesstbl P α} (ha : Alone t) (s : P) (a : α) : Alone (t.withFields s a) := by
  refine ⟨ha.once, fun i p hp => ?_⟩
  by_cases hps : p = s
  · subst hps
    simp only [Sesstbl.withFields, Function.update_self]
    exact ha.own i p hp
  · simp only [Sesstbl.withFields, Function.update_of_ne hps]
    exact ha.own i p hp

theorem Alone.call {t : Sesstbl P α} (ha : Alone t) {c : ConnCall P α}
    (hnew : ∀ s a, c = .add s a → ∀ i, t.slots.findSlot i ≠ some s) : Alone (t.call c) := by
  cases c with
  | add s a =>
    have hcl := ha.cleared a (hnew s a rfl)
    simp only [Sesstbl.call]
    rcases (t.withCleared s a).connectionTableAdd_cases s with ⟨-, h⟩ | ⟨id, slots, hadd, h⟩
    · rw [h]
      exact hcl
    · rw [h]
      exact hcl.withAdded hadd (hnew s a rfl)
  | del id =>
    simp only [Sesstbl.call]
    rcases t.connectionTableDel_cases id with ⟨-, h⟩ | ⟨k, s, -, hs, h⟩
    · rw [h]
      exact ha
    · rw [h]
      exact ha.withDeleted hs
  | write id a =>
    simp only [Sesstbl.call]
    split
    · exact ha.withFields _ a
    · exact ha

theorem records_added (record : Nat → α → β) {t : Sesstbl P α} {s : P} {id : Nat}
    {slots : ConnectionTable P} (hadd : t.slots.addSlot (fun _ => s) = some (id, slots))
    (hnew : ∀ i, t.slots.findSlot i ≠ some s) :
    (t.withAdded slots s id).records record =
      { table := (t.records record).table.set id (some (record id (t.mem s).fields))
        nfreed := t.slots.nfreed - 1, freeid := id + 1 } := by
  obtain ⟨-, rfl⟩ := add_cases hadd
  have hother : (t.withAdded t.slots s id).records record = t.records record := by
    apply mapConn_congr
    intro i p hp
    have hps : p ≠ s := fun h => hnew i (h ▸ hp)
    simp only [withAdded, Function.update_of_ne hps]
  have htable := congrArg table hother
  simp only [records, withAdded, ConnectionTable.mapConn, List.map_set, Option.map_some,
    Function.update_self, Int.toNat_natCast] at htable ⊢
  rw [htable]

/-- A change through the address under `id` is a change of the slot `id` alone. -/
theorem records_withFields (record : Nat → α → β) {t : Sesstbl P α} (ha : Alone t) {s : P} {id : Nat}
    (hs : t.slots.findSlot id = some s) (a : α) :
    (t.withFields s a).records record =
      { t.records record with table := (t.records record).table.set id (some (record id a)) } := by
  have hid := find_lt hs
  simp only [records, ConnectionTable.mapConn, withFields, ConnectionTable.mk.injEq, and_true]
  apply List.ext_getElem?
  intro j
  rw [List.getElem?_map, List.getElem?_set, List.length_map, List.getElem?_map]
  by_cases hj : id = j
  · subst hj
    rw [if_pos rfl, if_pos hid, List.getElem?_eq_getElem hid, find_getElem hs hid]
    simp only [Option.map_some, Function.update_self, (ha.own id s hs).1, Int.toNat_natCast]
  · rw [if_neg hj]
    cases hget : t.slots.table[j]? with
    | none => rfl
    | some o =>
      cases o with
      | none => rfl
      | some p =>
        have hp : t.slots.findSlot j = some p := by rw [findSlot, hget, Option.join_some]
        have hps : p ≠ s := fun h => hj (ha.once id j s hs (h ▸ hp))
        simp only [Option.map_some, Function.update_of_ne hps]

/-- One call on the addresses is the same call on the connections. -/
theorem records_call (record : Nat → α → β) {t : Sesstbl P α} (ha : Alone t) {c : ConnCall P α}
    (hnew : ∀ s a, c = .add s a → ∀ i, t.slots.findSlot i ≠ some s) :
    (t.call c).records record = recordCall record (t.records record) c := by
  cases c with
  | add s a =>
    have hcl := records_cleared record a (hnew s a rfl)
    simp only [Sesstbl.call, recordCall]
    have hslots : (t.records record).addSlot (fun id => record id a) = _ := addSlot_map _ t.slots s _
    rcases (t.withCleared s a).connectionTableAdd_cases s with ⟨hadd, h⟩ | ⟨id, slots, hadd, h⟩
    · have hadd' : (t.slots.addSlot fun _ => s) = none := hadd
      rw [h, hslots, hadd']
      exact hcl
    · have hadd' : (t.slots.addSlot fun _ => s) = some (id, slots) := hadd
      rw [h, hslots, hadd']
      have hadded := records_added record hadd (hnew s a rfl)
      have hfields : ((t.withCleared s a).mem s).fields = a := by simp only [withCleared, Function.update_self]
      rw [hcl, hfields] at hadded
      exact hadded
  | del id =>
    simp only [Sesstbl.call, recordCall]
    rcases t.connectionTableDel_cases id with ⟨hnone, h⟩ | ⟨k, s, hk, -, h⟩
    · rw [find_natCast] at hnone
      rw [h, records, delSlot_map, ConnectionTable.delSlot, hnone]
    · obtain rfl : id = k := by omega
      rw [h, records, records, delSlot_map]
      apply mapConn_congr
      intro j p _
      by_cases hps : p = s
      · subst hps
        simp only [Sesstbl.withDeleted, Function.update_self]
      · simp only [Sesstbl.withDeleted, Function.update_of_ne hps]
  | write id a =>
    obtain ⟨hrec, hfind⟩ := find_records record ha id
    simp only [Sesstbl.call, recordCall, hfind, store, hrec]
    cases hs : t.slots.findSlot id with
    | none => rfl
    | some s => exact records_withFields record ha hs a

/-- **A table of addresses is a table of connections.** Any calls, each adding
an address that no slot holds, do to the connections behind the addresses what
they do to a table that holds the connections. -/
theorem callRun_records (record : Nat → α → β) (cs : List (ConnCall P α)) : ∀ {t : Sesstbl P α},
    Alone t → AddsFree t cs →
      Alone (cs.foldl call t) ∧
        (cs.foldl call t).records record = cs.foldl (recordCall record) (t.records record) := by
  induction cs with
  | nil => exact fun ha _ => ⟨ha, rfl⟩
  | cons c cs ih =>
    intro t ha hnew
    rw [List.foldl_cons, List.foldl_cons, ← records_call record ha hnew.1]
    exact ih (ha.call hnew.1) hnew.2

/-- **The worker's table.** From `connection_table_alloc` on, with any use that
adds addresses no slot holds, the slots may hold the connections themselves, and
a lookup answers the connection behind the address without failing. -/
theorem sesstblRun_records (cap : Nat) (mem : P → TableConn Connection)
    (cs : List (ConnCall P Connection)) (hnew : AddsFree (alloc cap mem) cs) (id : Nat) :
    let t := cs.foldl call (alloc cap mem)
    let wi := cs.foldl (recordCall fun id s => { s with id := id }) (ConnectionTable.alloc cap)
    t.connectionTableFind id = (t.slots.findSlot id).elim .null .conn ∧
      wi.findSlot id = (t.slots.findSlot id).map fun s => { (t.mem s).fields with id := id } := by
  intro t wi
  obtain ⟨ha, hrec⟩ := callRun_records (fun id (s : Connection) => { s with id := id }) cs
    (alloc_alone cap mem) hnew
  have hstart : (alloc cap mem).records (fun id (s : Connection) => { s with id := id })
      = ConnectionTable.alloc cap := by
    simp only [records, alloc, ConnectionTable.alloc, ConnectionTable.mapConn, List.map_replicate,
      Option.map_none]
  rw [hstart] at hrec
  obtain ⟨hwi, hfind⟩ := find_records (fun id (s : Connection) => { s with id := id }) ha id
  rw [hrec] at hwi
  exact ⟨hfind, hwi⟩

end Sesstbl
end WafProxy
