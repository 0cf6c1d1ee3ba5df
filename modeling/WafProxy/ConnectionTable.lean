import Mathlib.Algebra.BigOperators.Group.List.Basic
import Mathlib.Logic.Function.Basic

/-
  The connection table of connection.c

  `table[id]` is what is stored under `id`, or NULL. A connection keeps its slot
  from `connection_table_add` to `connection_table_del`; `add` walks the slots
  as a ring from `freeid`. The table lock is left out: one worker uses a table
  alone.

  Two levels. `ConnectionTable` is the table with its slots, for any contents
  `α`. `Sesstbl` is the program: the slots hold addresses, and the three calls
  write `id` and `magic` into the connection an address leads to. Where every
  connection stands in one slot only, as in a worker, the slots may as well hold
  the connections themselves (`sesstblRun_records`); the worker's modules use
  the slots so, with `store` for a change made through the pointer.

  Correspondence (C ↔ Lean):
    `connection_table_t`                     ↔ `ConnectionTable`
    `_st_get_free_id`                        ↔ `stGetFreeId`
    `connection_table_add`, `_find`, `_del`  ↔ `connectionTableAdd`, `…Find`, `…Del`,
                                               on the slots `addSlot`, `findSlot`, `delSlot`
    `connection_t`, as far as the table goes ↔ `TableConn`
-/

namespace WafProxy

structure ConnectionTable (α : Type) where
  table : List (Option α)
  nfreed : Int
  freeid : Nat
  deriving Repr

namespace ConnectionTable
variable {α : Type}

def max (t : ConnectionTable α) : Nat := t.table.length

/-- `connection_table_alloc(max)`. -/
def alloc (max : Nat) : ConnectionTable α :=
  { table := List.replicate max none, nfreed := max, freeid := 0 }

/-- The `do … while (id != st->freeid)` loop of `_st_get_free_id`; the outer
`none` is a loop still running after `fuel` rounds, the inner one is `-1`. -/
def stGetFreeIdLoop (t : ConnectionTable α) : Nat → Nat → Option (Option Nat)
  | 0, _ => none
  | fuel + 1, id =>
    let id := if t.max ≤ id then 0 else id
    match t.table[id]? with
    | some none => some (some id)
    | _ => if id + 1 = t.freeid then some none else stGetFreeIdLoop t fuel (id + 1)

/-- One turn of the ring visits every slot, so `max + 1` rounds are enough. -/
def stGetFreeId (t : ConnectionTable α) : Option Nat :=
  (stGetFreeIdLoop t (t.max + 1) t.freeid).join

/-- What `connection_table_add` does to the slots: the id given to the
connection, or `none` for -1. -/
def addSlot (t : ConnectionTable α) (s : Nat → α) : Option (Nat × ConnectionTable α) :=
  if t.nfreed < 1 then none
  else match stGetFreeId t with
    | none => none
    | some id =>
      some (id, { table := t.table.set id (some (s id)), nfreed := t.nfreed - 1, freeid := id + 1 })

def findSlot (t : ConnectionTable α) (id : Nat) : Option α := (t.table[id]?).join

def delSlot (t : ConnectionTable α) (id : Nat) : ConnectionTable α :=
  match findSlot t id with
  | none => t
  | some _ => { t with table := t.table.set id none, nfreed := t.nfreed + 1 }

/-- Write back a connection changed through its pointer. -/
def store (t : ConnectionTable α) (id : Nat) (s : α) : ConnectionTable α :=
  match findSlot t id with
  | none => t
  | some _ => { t with table := t.table.set id (some s) }

end ConnectionTable

/-! ## The calls on connections in memory -/

/-- A `connection_t` in memory: the two fields the table writes, and the rest. -/
structure TableConn (α : Type) where
  id : Int
  magic : Nat
  fields : α

/-- `_connection_MAGIC`. -/
def connectionMagic : Nat := 0x87654321

/-- A table of addresses `P`, and the connections they lead to. -/
structure Sesstbl (P α : Type) where
  slots : ConnectionTable P
  mem : P → TableConn α

/-- What `connection_table_find` does: return NULL or an address, or fail its
assertion. -/
inductive Found (P : Type) where
  | null
  | conn (s : P)
  | abort
  deriving DecidableEq, Repr

namespace Sesstbl
variable {P α : Type} [DecidableEq P]

/-- `connection_table_add`; `none` is a NULL `s`. -/
def connectionTableAdd (t : Sesstbl P α) : Option P → Int × Sesstbl P α
  | none => (-1, t)
  | some s =>
    match t.slots.addSlot (fun _ => s) with
    | none => (-1, t)
    | some (id, slots) =>
      (0, { slots := slots
            mem := Function.update t.mem s { t.mem s with id := id, magic := connectionMagic } })

/-- `connection_table_find`. -/
def connectionTableFind (t : Sesstbl P α) (id : Int) : Found P :=
  if id < 0 ∨ t.slots.max ≤ id then .null
  else match t.slots.findSlot id.toNat with
    | none => .null
    | some s => if (t.mem s).magic = connectionMagic then .conn s else .abort

/-- `connection_table_del`. -/
def connectionTableDel (t : Sesstbl P α) (id : Int) : Int × Sesstbl P α :=
  if id < 0 ∨ t.slots.max ≤ id then (-1, t)
  else match t.slots.findSlot id.toNat with
    | none => (-1, t)
    | some s =>
      (0, { slots := t.slots.delSlot id.toNat
            mem := Function.update t.mem s { t.mem s with magic := 0 } })

end Sesstbl

namespace ConnectionTable
variable {α : Type}

/-! ## What a lookup sees after each operation -/

theorem stGetFreeIdLoop_slot (t : ConnectionTable α) {id : Nat} :
    ∀ fuel start, stGetFreeIdLoop t fuel start = some (some id) → t.table[id]? = some none
  | 0, _, h => by simp [stGetFreeIdLoop] at h
  | fuel + 1, start, h => by
    rw [stGetFreeIdLoop] at h
    generalize (if t.max ≤ start then 0 else start) = k at h
    split at h
    · next hslot =>
      simp only [Option.some.injEq] at h
      exact h ▸ hslot
    · split at h
      · simp at h
      · exact stGetFreeIdLoop_slot t fuel _ h

/-- The id `add` gives out names an empty slot. -/
theorem stGetFreeId_slot {t : ConnectionTable α} {id : Nat} (h : stGetFreeId t = some id) :
    t.table[id]? = some none := by
  unfold stGetFreeId at h
  cases hl : stGetFreeIdLoop t (t.max + 1) t.freeid with
  | none => simp [hl] at h
  | some o =>
    simp only [hl, Option.join_some] at h
    exact stGetFreeIdLoop_slot t _ _ (h ▸ hl)

theorem find_set {t : ConnectionTable α} {id j : Nat} {o : Option α} {n : Int} {f : Nat}
    (h : id < t.table.length) :
    findSlot ⟨t.table.set id o, n, f⟩ j =
      if j = id then o else findSlot t j := by
  unfold findSlot
  rw [List.getElem?_set]
  by_cases hj : j = id
  · subst hj; simp [h]
  · simp [hj, Ne.symm hj]

theorem find_lt {t : ConnectionTable α} {id : Nat} {s : α}
    (h : findSlot t id = some s) : id < t.table.length := by
  unfold findSlot at h
  rcases Nat.lt_or_ge id t.table.length with hl | hl
  · exact hl
  · rw [List.getElem?_eq_none hl] at h; simp at h

theorem add_find {t t' : ConnectionTable α} {s : Nat → α} {id : Nat}
    (h : addSlot t s = some (id, t')) :
    findSlot t id = none ∧
      ∀ j, findSlot t' j = if j = id then some (s id) else findSlot t j := by
  unfold addSlot at h
  split at h
  · simp at h
  · split at h
    · simp at h
    · next id' hid =>
      simp only [Option.some.injEq, Prod.mk.injEq] at h
      obtain ⟨rfl, rfl⟩ := h
      have hslot := stGetFreeId_slot hid
      refine ⟨by simp [findSlot, hslot], fun j => find_set ?_⟩
      exact (List.getElem?_eq_some_iff.mp hslot).1

@[simp] theorem find_del (t : ConnectionTable α) (id j : Nat) :
    findSlot (delSlot t id) j =
      if j = id then none else findSlot t j := by
  unfold delSlot
  cases h : findSlot t id with
  | none =>
    by_cases hj : j = id
    · subst hj; simp [h]
    · simp [hj]
  | some s => exact find_set (find_lt h)

theorem find_store {t : ConnectionTable α} {id : Nat} {old : α} (s : α) (j : Nat)
    (h : findSlot t id = some old) :
    findSlot (store t id s) j =
      if j = id then some s else findSlot t j := by
  unfold store
  rw [h]
  exact find_set (find_lt h)

@[simp] theorem find_alloc (n id : Nat) :
    findSlot (alloc n : ConnectionTable α) id = none := by
  unfold findSlot alloc
  rw [List.getElem?_replicate]
  split <;> rfl

/-! ## Totals over the stored connections -/

section
variable {M : Type} [AddCommMonoid M] (f : α → M)

/-- What `f` adds up to over the stored connections. -/
def total (t : ConnectionTable α) : M := (t.table.map fun o => o.elim 0 f).sum

theorem sum_map_set {β : Type} (g : β → M) (x : β) :
    ∀ (l : List β) (i : Nat) (h : i < l.length),
      ((l.set i x).map g).sum + g l[i] = (l.map g).sum + g x := by
  intro l
  induction l with
  | nil => intro i h; simp at h
  | cons y l ih =>
    intro i h
    cases i with
    | zero =>
      simp only [List.set_cons_zero, List.map_cons, List.sum_cons, List.getElem_cons_zero]
      ac_rfl
    | succ i =>
      simp only [List.set_cons_succ, List.map_cons, List.sum_cons, List.getElem_cons_succ]
      rw [add_assoc, ih i (Nat.lt_of_succ_lt_succ h), add_assoc]

theorem find_getElem {t : ConnectionTable α} {id : Nat} {s : α}
    (h : findSlot t id = some s) (hlt : id < t.table.length) : t.table[id] = some s := by
  unfold findSlot at h
  rw [List.getElem?_eq_getElem hlt] at h
  simpa using h

/-- The stored connections are one of them and the rest. -/
theorem total_del {t : ConnectionTable α} {id : Nat} {s : α}
    (h : findSlot t id = some s) :
    total f t = total f (delSlot t id) + f s := by
  have hs := sum_map_set (fun o : Option α => o.elim 0 f) none t.table id (find_lt h)
  simp only [find_getElem h (find_lt h), Option.elim_some, Option.elim_none, add_zero] at hs
  unfold total delSlot
  rw [h]
  exact hs.symm

theorem del_store {t : ConnectionTable α} {id : Nat} {s : α} (s' : α)
    (h : findSlot t id = some s) :
    (delSlot (store t id s') id).table = (delSlot t id).table := by
  have hs : findSlot (store t id s') id = some s' := by rw [find_store s' id h, if_pos rfl]
  unfold delSlot
  rw [hs, h]
  simp only [store, h, List.set_set]

theorem total_store {t : ConnectionTable α} {id : Nat} {s : α} (s' : α)
    (h : findSlot t id = some s) :
    total f (store t id s') = total f (delSlot t id) + f s' := by
  have hs : findSlot (store t id s') id = some s' := by rw [find_store s' id h, if_pos rfl]
  rw [total_del f hs]
  congr 1
  unfold total
  rw [del_store s' h]

/-- Deleting the connection just added gives the slots back. -/
theorem del_add {t t' : ConnectionTable α} {s : Nat → α} {id : Nat}
    (h : addSlot t s = some (id, t')) : (delSlot t' id).table = t.table := by
  have hfind := (add_find h).2 id
  rw [if_pos rfl] at hfind
  unfold addSlot at h
  split at h
  · simp at h
  split at h
  · simp at h
  next id' hid =>
  simp only [Option.some.injEq, Prod.mk.injEq] at h
  obtain ⟨rfl, rfl⟩ := h
  unfold delSlot
  rw [hfind]
  obtain ⟨hlt, hslot⟩ := List.getElem?_eq_some_iff.mp (stGetFreeId_slot hid)
  simp only [List.set_set]
  rw [← hslot, List.set_getElem_self]

/-- The total depends on the stored connections only. -/
theorem total_congr {t : ConnectionTable α} {f g : α → M}
    (h : ∀ id s, findSlot t id = some s → f s = g s) : total f t = total g t := by
  unfold total
  congr 1
  refine List.map_congr_left fun o ho => ?_
  obtain ⟨id, hid, rfl⟩ := List.mem_iff_getElem.mp ho
  cases hs : t.table[id] with
  | none => rfl
  | some s => exact h id s (by simp [findSlot, hid, hs])

theorem total_alloc (n : Nat) : total f (alloc n : ConnectionTable α) = 0 := by
  unfold total alloc
  simp

end

end ConnectionTable
end WafProxy
