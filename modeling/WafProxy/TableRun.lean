import WafProxy.ConnectionTable

/-
  The connection table over a whole run

  1. `find` — what stands under an `int` id. `max` fits an `int`, as
     `(int)st->max` needs.
  2. `search_up`, `search_wrap` — the ring search from `freeid`, first without
     and then with the step from the last slot to the first.
  3. `TableInv` — what every call keeps of the slots; `stGetFreeId` only runs
     when `nfreed` is positive, and then some slot is empty.
  4. `tableStep_cases` — what one call of the program can do.
  5. `Agrees`, `Alone` — the table against the book of its own successful calls:
     the magic number of a stored connection says whether the last call about
     it was an `add`; a connection that stands in one slot has that slot's id.
  6. `connectionTable_run` — the table refines the book, for any addresses.
-/

namespace WafProxy
namespace ConnectionTable
variable {α : Type}

/-- What stands under `id`, which may be no slot. -/
def find (t : ConnectionTable α) (id : Int) : Option α :=
  if id < 0 ∨ t.max ≤ id then none else findSlot t id.toNat

/-! ## The ring search -/

theorem search_slot {t : ConnectionTable α} {id fuel : Nat} (hid : id < t.max)
    (h : t.table[id]? = some none) : stGetFreeIdLoop t (fuel + 1) id = some (some id) := by
  rw [stGetFreeIdLoop, if_neg (by omega), h]

theorem search_next {t : ConnectionTable α} {id fuel : Nat} (hid : id < t.max)
    (h : t.table[id]? ≠ some none) (hf : id + 1 ≠ t.freeid) :
    stGetFreeIdLoop t (fuel + 1) id = stGetFreeIdLoop t fuel (id + 1) := by
  rw [stGetFreeIdLoop, if_neg (by omega)]
  split
  · contradiction
  · rw [if_neg hf]

/-- Upwards from `id` to an empty slot `k`, when the cursor is not passed. -/
theorem search_up {t : ConnectionTable α} {k : Nat} (hk : k < t.max)
    (hslot : t.table[k]? = some none) (n : Nat) : ∀ (id fuel : Nat), id + n = k → n < fuel →
      (∀ j, id ≤ j → j < k → j + 1 ≠ t.freeid) →
      ∃ i, stGetFreeIdLoop t fuel id = some (some i) := by
  induction n with
  | zero =>
    intro id fuel hid hfuel _
    obtain ⟨fuel, rfl⟩ := Nat.exists_eq_succ_of_ne_zero (by omega : fuel ≠ 0)
    obtain rfl : id = k := by omega
    exact ⟨id, search_slot hk hslot⟩
  | succ n ih =>
    intro id fuel hid hfuel hcur
    obtain ⟨fuel, rfl⟩ := Nat.exists_eq_succ_of_ne_zero (by omega : fuel ≠ 0)
    by_cases h : t.table[id]? = some none
    · exact ⟨id, search_slot (by omega) h⟩
    · rw [search_next (by omega) h (hcur id (Nat.le_refl _) (by omega))]
      apply ih (id + 1) fuel (by omega) (by omega)
      intro j hj hjk
      exact hcur j (by omega) hjk

/-- From behind the cursor over the end of the table to an empty slot `k`. -/
theorem search_wrap {t : ConnectionTable α} {k : Nat} (hk : k < t.freeid) (hf : t.freeid ≤ t.max)
    (hslot : t.table[k]? = some none) (n : Nat) : ∀ (id fuel : Nat), id + n = t.max →
      t.freeid ≤ id → n + k < fuel → ∃ i, stGetFreeIdLoop t fuel id = some (some i) := by
  induction n with
  | zero =>
    intro id fuel hid _ hfuel
    obtain ⟨fuel, rfl⟩ := Nat.exists_eq_succ_of_ne_zero (by omega : fuel ≠ 0)
    have htop : (if t.max ≤ id then 0 else id) = 0 := if_pos (by omega)
    have hstart : (if t.max ≤ 0 then 0 else 0) = 0 := ite_self 0
    have hzero : stGetFreeIdLoop t (fuel + 1) id = stGetFreeIdLoop t (fuel + 1) 0 := by
      simp only [stGetFreeIdLoop, htop, hstart]
    rw [hzero]
    apply search_up (by omega) hslot k 0 (fuel + 1) (by omega) (by omega)
    intro j _ hj
    omega
  | succ n ih =>
    intro id fuel hid hcur hfuel
    obtain ⟨fuel, rfl⟩ := Nat.exists_eq_succ_of_ne_zero (by omega : fuel ≠ 0)
    by_cases h : t.table[id]? = some none
    · exact ⟨id, search_slot (by omega) h⟩
    · rw [search_next (by omega) h (by omega)]
      exact ih (id + 1) fuel (by omega) (by omega) (by omega)

/-! ## The invariant -/

/-- The number of connections stored. -/
def count (t : ConnectionTable α) : Nat := t.table.countP Option.isSome

structure TableInv (cap : Nat) (t : ConnectionTable α) : Prop where
  size : t.max = cap
  nfreed : t.nfreed = t.table.countP Option.isNone
  freeid : t.freeid ≤ cap

theorem count_add_free (t : ConnectionTable α) :
    t.count + t.table.countP Option.isNone = t.max := by
  have h := List.length_eq_countP_add_countP (p := Option.isSome) (l := t.table)
  have hnone : (fun o : Option α => decide ¬ o.isSome = true) = Option.isNone := by
    funext o
    cases o <;> rfl
  rw [hnone] at h
  exact h.symm

/-- **The search ends, with an empty slot, whenever it is started.** -/
theorem TableInv.search {cap : Nat} {t : ConnectionTable α} (hi : TableInv cap t)
    (h : ¬ t.nfreed < 1) : ∃ id, stGetFreeIdLoop t (t.max + 1) t.freeid = some (some id) := by
  have hpos : 0 < t.table.countP Option.isNone := by
    have := hi.nfreed
    omega
  obtain ⟨o, ho, hnone⟩ := List.countP_pos_iff.mp hpos
  obtain ⟨k, hk, hget⟩ := List.mem_iff_getElem.mp ho
  have hslot : t.table[k]? = some none := by
    rw [List.getElem?_eq_getElem hk, hget, Option.isNone_iff_eq_none.mp hnone]
  have hf : t.freeid ≤ t.max := hi.size ▸ hi.freeid
  rcases Nat.lt_or_ge k t.freeid with hlt | hge
  · exact search_wrap hlt hf hslot (t.max - t.freeid) _ _ (by omega) (Nat.le_refl _) (by omega)
  · have hkm : k < t.max := hk
    apply search_up hkm hslot (k - t.freeid) _ _ (by omega) (by omega)
    intro j hj _
    omega

theorem TableInv.add_iff {cap : Nat} {t : ConnectionTable α} (hi : TableInv cap t) (s : Nat → α) :
    (∃ r, addSlot t s = some r) ↔ t.count < cap := by
  have hcount := t.count_add_free
  have hsize := hi.size
  have hnf := hi.nfreed
  by_cases hfree : t.nfreed < 1
  · have hnone : addSlot t s = none := by rw [addSlot, if_pos hfree]
    refine iff_of_false (fun ⟨r, h⟩ => by rw [hnone] at h; cases h) (by omega)
  · obtain ⟨id, hid⟩ := hi.search hfree
    have hget : stGetFreeId t = some id := by rw [stGetFreeId, hid, Option.join_some]
    refine iff_of_true ?_ (by omega)
    rw [addSlot, if_neg hfree, hget]
    exact ⟨_, rfl⟩

/-- What a successful add does to the table. -/
theorem add_cases {t t' : ConnectionTable α} {s : Nat → α} {id : Nat}
    (h : addSlot t s = some (id, t')) :
    t.table[id]? = some none ∧
      t' = { table := t.table.set id (some (s id)), nfreed := t.nfreed - 1, freeid := id + 1 } := by
  unfold addSlot at h
  split at h
  · cases h
  split at h
  · cases h
  next id' hid =>
  simp only [Option.some.injEq, Prod.mk.injEq] at h
  obtain ⟨rfl, rfl⟩ := h
  exact ⟨stGetFreeId_slot hid, rfl⟩

theorem TableInv.add {cap : Nat} {t t' : ConnectionTable α} {s : Nat → α} {id : Nat}
    (hi : TableInv cap t) (h : addSlot t s = some (id, t')) : TableInv cap t' := by
  obtain ⟨hslot, rfl⟩ := add_cases h
  obtain ⟨hlt, hget⟩ := List.getElem?_eq_some_iff.mp hslot
  have hsize : t.table.length = cap := hi.size
  have hmem : none ∈ t.table := hget ▸ List.getElem_mem hlt
  have hpos : 0 < t.table.countP Option.isNone := List.countP_pos_iff.mpr ⟨none, hmem, rfl⟩
  refine ⟨?_, ?_, by show id + 1 ≤ cap; omega⟩
  · rw [ConnectionTable.max, List.length_set, hsize]
  · have hnf := hi.nfreed
    simp only [List.countP_set hlt, hget, Option.isNone_none, Option.isNone_some, if_true]
    simp
    omega

theorem find_some {t : ConnectionTable α} {id : Int} {s : α} (h : t.find id = some s) :
    ∃ i : Nat, id = i ∧ findSlot t i = some s := by
  unfold find at h
  split at h
  · cases h
  · exact ⟨id.toNat, by omega, h⟩

theorem find_natCast (t : ConnectionTable α) (i : Nat) : t.find i = findSlot t i := by
  unfold find
  by_cases h : t.max ≤ i
  · rw [if_pos (Or.inr (by omega)), findSlot, List.getElem?_eq_none h]
    rfl
  · rw [if_neg (by omega), Int.toNat_natCast]

theorem find_neg {t : ConnectionTable α} {id : Int} (h : id < 0) : t.find id = none := by
  rw [find, if_pos (Or.inl h)]

theorem TableInv.delSlot {cap : Nat} {t : ConnectionTable α} (hi : TableInv cap t) (id : Nat) :
    TableInv cap (t.delSlot id) := by
  unfold ConnectionTable.delSlot
  cases hs : t.findSlot id with
  | none => exact hi
  | some s =>
    have hlt := find_lt hs
    have hget := find_getElem hs hlt
    refine ⟨?_, ?_, hi.freeid⟩
    · rw [ConnectionTable.max, List.length_set]
      exact hi.size
    · have hnf := hi.nfreed
      simp only [List.countP_set hlt, hget, Option.isNone_none, Option.isNone_some, if_true]
      simp
      omega

theorem alloc_inv (cap : Nat) : TableInv cap (alloc cap : ConnectionTable α) := by
  refine ⟨List.length_replicate, ?_, Nat.zero_le _⟩
  simp [alloc, List.countP_replicate]

theorem find_alloc_int (cap : Nat) (id : Int) : (alloc cap : ConnectionTable α).find id = none := by
  unfold find
  split
  · rfl
  · exact find_alloc _ _

/-- An `int` id is a slot or holds nothing. -/
theorem find_update {t t' : ConnectionTable α} {k : Nat} {o : Option α}
    (h : ∀ j, t'.findSlot j = if j = k then o else t.findSlot j) (id : Int) :
    t'.find id = Function.update t.find k o id := by
  rw [Function.update_apply]
  by_cases hneg : id < 0
  · rw [find_neg hneg, if_neg (by omega), find_neg hneg]
  · obtain ⟨i, rfl⟩ := Int.eq_ofNat_of_zero_le (Int.not_lt.mp hneg)
    rw [find_natCast, h i, find_natCast]
    by_cases hik : i = k
    · rw [if_pos hik, if_pos (by omega)]
    · rw [if_neg hik, if_neg (by omega)]

end ConnectionTable

namespace Sesstbl
open ConnectionTable
variable {P α : Type} [DecidableEq P]

/-! ## The calls of a run -/

inductive TableOp (P : Type) where
  | add (s : Option P)
  | find (id : Int)
  | del (id : Int)
  deriving DecidableEq

/-- What a call answers; -1 is `refused`, and the id of an added connection is
read from the connection. -/
inductive TableRes (P : Type) where
  | added (id : Int)
  | found (s : Option P)
  | deleted
  | refused
  | aborted
  deriving DecidableEq

def tableStep (t : Sesstbl P α) : TableOp P → Sesstbl P α × TableRes P
  | .add none => ((t.connectionTableAdd none).2, .refused)
  | .add (some s) =>
    match t.connectionTableAdd (some s) with
    | (r, t') => (t', if r = 0 then .added (t'.mem s).id else .refused)
  | .find id =>
    match t.connectionTableFind id with
    | .null => (t, .found none)
    | .conn s => (t, .found (some s))
    | .abort => (t, .aborted)
  | .del id =>
    match t.connectionTableDel id with
    | (r, t') => (t', if r = 0 then .deleted else .refused)

/-- The table after a list of calls, and the calls with their answers. Nothing
is called behind a failed assertion. -/
def tableRun : Sesstbl P α → List (TableOp P) → Sesstbl P α × List (TableOp P × TableRes P)
  | t, [] => (t, [])
  | t, op :: ops =>
    let (t', r) := tableStep t op
    if r = .aborted then (t', [(op, r)])
    else ((tableRun t' ops).1, (op, r) :: (tableRun t' ops).2)

/-- The book of the successful calls: the connection last added under an id and
not deleted there since, and of each connection whether the last call about it
was an `add`. -/
structure Book (P : Type) where
  stored : Int → Option P
  marked : P → Bool

def Book.empty : Book P := ⟨fun _ => none, fun _ => false⟩

def Book.step (b : Book P) : TableOp P × TableRes P → Book P
  | (.add (some s), .added id) =>
    ⟨Function.update b.stored id (some s), Function.update b.marked s true⟩
  | (.del id, .deleted) =>
    ⟨Function.update b.stored id none,
      (b.stored id).elim b.marked fun s => Function.update b.marked s false⟩
  | _ => b

/-- Each successful `add` is of a connection that stands nowhere. -/
def AddsNew : Book P → List (TableOp P × TableRes P) → Prop
  | _, [] => True
  | b, c :: cs =>
    (∀ s id, c = (.add (some s), .added id) → ∀ i, b.stored i ≠ some s) ∧ AddsNew (b.step c) cs

/-! ## What one call does -/

omit [DecidableEq P] in
theorem connectionTableFind_eq (t : Sesstbl P α) (id : Int) :
    t.connectionTableFind id = (t.slots.find id).elim .null fun s =>
      if (t.mem s).magic = connectionMagic then .conn s else .abort := by
  unfold connectionTableFind ConnectionTable.find
  by_cases h : id < 0 ∨ t.slots.max ≤ id
  · rw [if_pos h, if_pos h]
    rfl
  · rw [if_neg h, if_neg h]
    cases t.slots.findSlot id.toNat <;> rfl

/-- The table with `s` added under `id`. -/
def withAdded (t : Sesstbl P α) (slots : ConnectionTable P) (s : P) (id : Nat) : Sesstbl P α :=
  { slots := slots
    mem := Function.update t.mem s { t.mem s with id := id, magic := connectionMagic } }

/-- The table with `s` deleted under `id`. -/
def withDeleted (t : Sesstbl P α) (s : P) (id : Nat) : Sesstbl P α :=
  { slots := t.slots.delSlot id, mem := Function.update t.mem s { t.mem s with magic := 0 } }

theorem connectionTableAdd_cases (t : Sesstbl P α) (s : P) :
    (t.slots.addSlot (fun _ => s) = none ∧ t.connectionTableAdd (some s) = (-1, t)) ∨
    ∃ id slots, t.slots.addSlot (fun _ => s) = some (id, slots) ∧
      t.connectionTableAdd (some s) = (0, t.withAdded slots s id) := by
  cases h : t.slots.addSlot fun _ => s with
  | none =>
    refine Or.inl ⟨rfl, ?_⟩
    simp only [connectionTableAdd, h]
  | some r =>
    refine Or.inr ⟨r.1, r.2, rfl, ?_⟩
    simp only [connectionTableAdd, h]
    rfl

theorem connectionTableDel_cases (t : Sesstbl P α) (id : Int) :
    (t.slots.find id = none ∧ t.connectionTableDel id = (-1, t)) ∨
    ∃ (k : Nat) (s : P), id = k ∧ t.slots.findSlot k = some s ∧
      t.connectionTableDel id = (0, t.withDeleted s k) := by
  unfold connectionTableDel ConnectionTable.find
  by_cases h : id < 0 ∨ t.slots.max ≤ id
  · rw [if_pos h, if_pos h]
    exact Or.inl ⟨rfl, rfl⟩
  · rw [if_neg h, if_neg h]
    cases hs : t.slots.findSlot id.toNat with
    | none => exact Or.inl ⟨rfl, rfl⟩
    | some s => exact Or.inr ⟨id.toNat, s, by omega, hs, rfl⟩

/-- A call changes nothing, in the table or in the book, or it adds a
connection, or it deletes one. -/
theorem tableStep_cases (t : Sesstbl P α) (op : TableOp P) :
    ((tableStep t op).1 = t ∧ ∀ b : Book P, b.step (op, (tableStep t op).2) = b) ∨
    (∃ s id slots, op = .add (some s) ∧ t.slots.addSlot (fun _ => s) = some (id, slots) ∧
      tableStep t op = (t.withAdded slots s id, .added id)) ∨
    ∃ (k : Nat) (s : P), op = .del k ∧ t.slots.findSlot k = some s ∧
      tableStep t op = (t.withDeleted s k, .deleted) := by
  cases op with
  | add o =>
    cases o with
    | none => exact Or.inl ⟨rfl, fun _ => rfl⟩
    | some s =>
      rcases t.connectionTableAdd_cases s with ⟨-, h⟩ | ⟨id, slots, hadd, h⟩
      · have hstep : tableStep t (.add (some s)) = (t, .refused) := by
          simp only [tableStep, h]
          rfl
        rw [hstep]
        exact Or.inl ⟨rfl, fun _ => rfl⟩
      · refine Or.inr (Or.inl ⟨s, id, slots, rfl, hadd, ?_⟩)
        simp only [tableStep, h, withAdded, Function.update_self, if_true]
  | find id =>
    simp only [tableStep]
    cases t.connectionTableFind id <;> exact Or.inl ⟨rfl, fun _ => rfl⟩
  | del id =>
    rcases t.connectionTableDel_cases id with ⟨-, h⟩ | ⟨k, s, rfl, hs, h⟩
    · have hstep : tableStep t (.del id) = (t, .refused) := by
        simp only [tableStep, h]
        rfl
      rw [hstep]
      exact Or.inl ⟨rfl, fun _ => rfl⟩
    · refine Or.inr (Or.inr ⟨k, s, rfl, hs, ?_⟩)
      simp only [tableStep, h, if_true]

/-! ## What every call keeps -/

theorem slots_step {cap : Nat} {t : Sesstbl P α} (hi : ConnectionTable.TableInv cap t.slots) (op : TableOp P) :
    ConnectionTable.TableInv cap (tableStep t op).1.slots := by
  rcases tableStep_cases t op with ⟨h, -⟩ | ⟨s, id, slots, -, hadd, h⟩ | ⟨k, s, -, -, h⟩
  · rw [h]
    exact hi
  · rw [h]
    exact hi.add hadd
  · rw [h]
    exact hi.delSlot k

/-- The table is what its successful calls say. -/
structure Agrees (b : Book P) (t : Sesstbl P α) : Prop where
  stored : ∀ id, t.slots.find id = b.stored id
  marked : ∀ id s, b.stored id = some s → ((t.mem s).magic = connectionMagic ↔ b.marked s = true)

theorem Agrees.step {b : Book P} {t : Sesstbl P α} (ha : Agrees b t) (op : TableOp P) :
    Agrees (b.step (op, (tableStep t op).2)) (tableStep t op).1 := by
  rcases tableStep_cases t op with ⟨h, hb⟩ | ⟨s, id, slots, rfl, hadd, h⟩ | ⟨k, s, rfl, hs, h⟩
  · rw [h, hb b]
    exact ha
  · rw [h]
    have hfind := funext (find_update (add_find hadd).2)
    rw [funext ha.stored] at hfind
    refine ⟨fun i => congrFun hfind i, fun i p hp => ?_⟩
    by_cases hps : p = s
    · subst hps
      simp [Book.step, withAdded]
    · -- another connection keeps its place and its magic number
      have hp' : b.stored i = some p := by
        simp only [Book.step, Function.update_apply] at hp
        split at hp
        · exact absurd (Option.some.inj hp).symm hps
        · exact hp
      simp only [Book.step, withAdded, Function.update_of_ne hps]
      exact ha.marked i p hp'
  · rw [h]
    have hfind := funext (find_update (find_del t.slots k))
    rw [funext ha.stored] at hfind
    have hk : b.stored k = some s := by rw [← ha.stored, find_natCast, hs]
    refine ⟨fun i => congrFun hfind i, fun i p hp => ?_⟩
    simp only [Book.step, hk, Option.elim_some, withDeleted]
    by_cases hps : p = s
    · subst hps
      simp [connectionMagic]
    · have hp' : b.stored i = some p := by
        simp only [Book.step, Function.update_apply] at hp
        split at hp
        · cases hp
        · exact hp
      simp only [Function.update_of_ne hps]
      exact ha.marked i p hp'

/-- No connection stands in two slots, and each has its own id and the magic
number. -/
structure Alone (t : Sesstbl P α) : Prop where
  once : ∀ i j s, t.slots.findSlot i = some s → t.slots.findSlot j = some s → i = j
  own : ∀ i s, t.slots.findSlot i = some s → (t.mem s).id = i ∧ (t.mem s).magic = connectionMagic

theorem Alone.withAdded {t : Sesstbl P α} (ha : Alone t) {s : P} {id : Nat} {slots : ConnectionTable P}
    (hadd : t.slots.addSlot (fun _ => s) = some (id, slots))
    (hnew : ∀ i, t.slots.findSlot i ≠ some s) : Alone (t.withAdded slots s id) := by
  have hfind := (add_find hadd).2
  have hcases : ∀ i p, slots.findSlot i = some p → i = id ∧ p = s ∨ p ≠ s ∧ t.slots.findSlot i = some p := by
    intro i p hp
    rw [hfind] at hp
    by_cases hi : i = id
    · rw [if_pos hi] at hp
      exact Or.inl ⟨hi, (Option.some.inj hp).symm⟩
    · rw [if_neg hi] at hp
      exact Or.inr ⟨fun h => hnew i (h ▸ hp), hp⟩
  refine ⟨fun i j p hi hj => ?_, fun i p hp => ?_⟩
  · rcases hcases i p hi with ⟨rfl, rfl⟩ | ⟨hne, hi'⟩
    · rcases hcases j p hj with ⟨rfl, -⟩ | ⟨hne, -⟩
      · rfl
      · contradiction
    · rcases hcases j p hj with ⟨-, heq⟩ | ⟨-, hj'⟩
      · contradiction
      · exact ha.once i j p hi' hj'
  · rcases hcases i p hp with ⟨rfl, rfl⟩ | ⟨hne, hp'⟩
    · simp [Sesstbl.withAdded]
    · simp only [Sesstbl.withAdded, Function.update_of_ne hne]
      exact ha.own i p hp'

theorem Alone.withDeleted {t : Sesstbl P α} (ha : Alone t) {s : P} {k : Nat}
    (hs : t.slots.findSlot k = some s) : Alone (t.withDeleted s k) := by
  have hcases : ∀ i p, (t.slots.delSlot k).findSlot i = some p → p ≠ s ∧ t.slots.findSlot i = some p := by
    intro i p hp
    rw [find_del] at hp
    by_cases hi : i = k
    · rw [if_pos hi] at hp
      cases hp
    · rw [if_neg hi] at hp
      exact ⟨fun h => hi (ha.once i k s (h ▸ hp) hs), hp⟩
  refine ⟨fun i j p hi hj => ha.once i j p (hcases i p hi).2 (hcases j p hj).2, fun i p hp => ?_⟩
  obtain ⟨hne, hp'⟩ := hcases i p hp
  simp only [Sesstbl.withDeleted, Function.update_of_ne hne]
  exact ha.own i p hp'

omit [DecidableEq P] in
/-- The assertion of `find` holds while every connection stands alone. -/
theorem Alone.find {t : Sesstbl P α} (ha : Alone t) (id : Int) :
    t.connectionTableFind id = (t.slots.find id).elim .null .conn := by
  rw [connectionTableFind_eq]
  cases hs : t.slots.find id with
  | none => rfl
  | some s =>
    obtain ⟨i, -, hi⟩ := find_some hs
    exact if_pos (ha.own i s hi).2

theorem Alone.step {b : Book P} {t : Sesstbl P α} (hb : Agrees b t) (ha : Alone t) {op : TableOp P}
    (hnew : ∀ s id, (op, (tableStep t op).2) = (.add (some s), .added id) → ∀ i, b.stored i ≠ some s) :
    Alone (tableStep t op).1 := by
  rcases tableStep_cases t op with ⟨h, -⟩ | ⟨s, id, slots, rfl, hadd, h⟩ | ⟨k, s, -, hs, h⟩
  · rw [h]
    exact ha
  · rw [h] at hnew ⊢
    refine ha.withAdded hadd fun i hi => hnew s id rfl i ?_
    rw [← hb.stored, find_natCast, hi]
  · rw [h]
    exact ha.withDeleted hs

/-! ## Runs -/


theorem tableRun_cons (t : Sesstbl P α) (op : TableOp P) (ops : List (TableOp P)) :
    tableRun t (op :: ops) =
      if (tableStep t op).2 = .aborted then ((tableStep t op).1, [(op, (tableStep t op).2)])
      else ((tableRun (tableStep t op).1 ops).1,
        (op, (tableStep t op).2) :: (tableRun (tableStep t op).1 ops).2) := rfl

theorem tableRun_rule {I : Book P → Sesstbl P α → Prop}
    (hstep : ∀ b t op, I b t → I (b.step (op, (tableStep t op).2)) (tableStep t op).1)
    (ops : List (TableOp P)) : ∀ {b : Book P} {t : Sesstbl P α}, I b t →
      I ((tableRun t ops).2.foldl Book.step b) (tableRun t ops).1 := by
  induction ops with
  | nil => exact fun h => h
  | cons op ops ih =>
    intro b t h
    rw [tableRun_cons]
    split
    · exact hstep b t op h
    · exact ih (hstep b t op h)

/-- Added only while it stands nowhere, every connection stays alone, and no
assertion fails. -/
theorem tableRun_alone (ops : List (TableOp P)) : ∀ {b : Book P} {t : Sesstbl P α}, Agrees b t →
    Alone t → AddsNew b (tableRun t ops).2 →
      Alone (tableRun t ops).1 ∧ ∀ c ∈ (tableRun t ops).2, c.2 ≠ .aborted := by
  induction ops with
  | nil => exact fun _ ha _ => ⟨ha, fun c hc => absurd hc List.not_mem_nil⟩
  | cons op ops ih =>
    intro b t hb ha hnew
    have hne : (tableStep t op).2 ≠ .aborted := by
      cases op with
      | add o => cases o <;> simp only [tableStep] <;> (try split) <;> simp
      | find id =>
        simp only [tableStep, ha.find]
        cases t.slots.find id <;> simp
      | del id =>
        simp only [tableStep]
        split <;> simp
    rw [tableRun_cons, if_neg hne] at hnew ⊢
    obtain ⟨ha', hrest⟩ := ih (hb.step op) (ha.step hb hnew.1) hnew.2
    refine ⟨ha', fun c hc => ?_⟩
    rcases List.mem_cons.mp hc with rfl | hc
    · exact hne
    · exact hrest c hc

/-- The table `connection_table_alloc(cap)` gives, with any connections in memory. -/
def alloc (cap : Nat) (mem : P → TableConn α) : Sesstbl P α := ⟨ConnectionTable.alloc cap, mem⟩

/-- The book after the calls of a run. -/
def book (calls : List (TableOp P × TableRes P)) : Book P := calls.foldl Book.step Book.empty

omit [DecidableEq P] in
theorem alloc_alone (cap : Nat) (mem : P → TableConn α) : Alone (alloc cap mem) := by
  have hnone : ∀ i s, (alloc cap mem).slots.findSlot i ≠ some s := by
    intro i s h
    rw [alloc, find_alloc] at h
    cases h
  exact ⟨fun i _ s hi => absurd hi (hnone i s), fun i s hi => absurd hi (hnone i s)⟩

/-- The law of the table against the book `b` of the calls so far. -/
structure TableLaw (cap : Nat) (b : Book P) (t : Sesstbl P α) : Prop where
  nfreed : t.slots.nfreed = t.slots.table.countP Option.isNone
  search : ¬ t.slots.nfreed < 1 →
    ∃ id, stGetFreeIdLoop t.slots (t.slots.max + 1) t.slots.freeid = some (some id)
  adds : ∀ s, (t.connectionTableAdd (some s)).1 = 0 ↔ t.slots.count < cap
  fresh : ∀ s, (t.connectionTableAdd (some s)).1 = 0 →
    ∃ id : Nat, ((t.connectionTableAdd (some s)).2.mem s).id = id ∧ id < cap ∧
      ∀ j c, t.slots.find j = some c → j ≠ id
  find : ∀ id, t.connectionTableFind id =
    (b.stored id).elim .null fun s => if b.marked s then .conn s else .abort
  failedAdd : ∀ s, (t.connectionTableAdd s).1 ≠ 0 → (t.connectionTableAdd s).2 = t
  failedDel : ∀ id, (t.connectionTableDel id).1 ≠ 0 → (t.connectionTableDel id).2 = t

theorem law_of_inv {cap : Nat} {b : Book P} {t : Sesstbl P α} (hi : ConnectionTable.TableInv cap t.slots)
    (hb : Agrees b t) : TableLaw cap b t := by
  refine ⟨hi.nfreed, hi.search, fun s => ?_, fun s h => ?_, fun id => ?_, fun s h => ?_, fun id h => ?_⟩
  · rw [← hi.add_iff fun _ => s]
    rcases t.connectionTableAdd_cases s with ⟨hadd, h⟩ | ⟨id, slots, hadd, h⟩
    · rw [h, hadd]
      exact iff_of_false (fun h => by cases h) (fun ⟨_, h⟩ => by cases h)
    · rw [h, hadd]
      exact iff_of_true rfl ⟨_, rfl⟩
  · rcases t.connectionTableAdd_cases s with ⟨-, h'⟩ | ⟨id, slots, hadd, h'⟩
    · rw [h'] at h
      cases h
    obtain ⟨hslot, -⟩ := add_cases hadd
    obtain ⟨hlt, -⟩ := List.getElem?_eq_some_iff.mp hslot
    have hsize : t.slots.table.length = cap := hi.size
    refine ⟨id, ?_, by omega, ?_⟩
    · rw [h']
      simp only [withAdded, Function.update_self]
    · intro j c hj heq
      rw [heq, find_natCast, (add_find hadd).1] at hj
      cases hj
  · rw [connectionTableFind_eq, hb.stored]
    cases hs : b.stored id with
    | none => rfl
    | some s => simp only [Option.elim_some, hb.marked id s hs]
  · cases s with
    | none => rfl
    | some s =>
      rcases t.connectionTableAdd_cases s with ⟨-, h'⟩ | ⟨id, slots, -, h'⟩
      · rw [h']
      · rw [h'] at h
        exact absurd rfl h
  · rcases t.connectionTableDel_cases id with ⟨-, h'⟩ | ⟨k, s, -, -, h'⟩
    · rw [h']
    · rw [h'] at h
      exact absurd rfl h

/-- **The connection table, after any calls with any addresses.** `nfreed`
counts the NULL slots, `add` succeeds exactly below the capacity, its search
ends, the id is free and inside the table, a failed call changes nothing, and
`find` answers what was added under the id and not deleted there since, unless
the last call about that connection deleted it under another id: then its
assertion fails. Where connections are only added that stand in no slot, it
never does, and every stored connection has the id of its slot. -/
theorem connectionTable_run (cap : Nat) (mem : P → TableConn α) (ops : List (TableOp P)) :
    TableLaw cap (book (tableRun (alloc cap mem) ops).2) (tableRun (alloc cap mem) ops).1 ∧
      (AddsNew Book.empty (tableRun (alloc cap mem) ops).2 →
        (∀ c ∈ (tableRun (alloc cap mem) ops).2, c.2 ≠ .aborted) ∧
          (∀ id, (tableRun (alloc cap mem) ops).1.connectionTableFind id =
            ((book (tableRun (alloc cap mem) ops).2).stored id).elim .null .conn) ∧
          ∀ (id : Int) s, (book (tableRun (alloc cap mem) ops).2).stored id = some s →
            ((tableRun (alloc cap mem) ops).1.mem s).id = id) := by
  have hstart : Agrees (Book.empty : Book P) (alloc cap mem) :=
    ⟨fun id => find_alloc_int cap id, fun _ _ h => by cases h⟩
  have hb : Agrees (book (tableRun (alloc cap mem) ops).2) (tableRun (alloc cap mem) ops).1 :=
    tableRun_rule (fun _ _ op h => h.step op) ops hstart
  have hi : ConnectionTable.TableInv cap (tableRun (alloc cap mem) ops).1.slots :=
    tableRun_rule (I := fun _ t => ConnectionTable.TableInv cap t.slots) (fun _ _ op h => slots_step h op) ops
      (b := Book.empty) (alloc_inv cap)
  refine ⟨law_of_inv hi hb, fun hnew => ?_⟩
  obtain ⟨ha, hgo⟩ := tableRun_alone ops hstart (alloc_alone cap mem) hnew
  refine ⟨hgo, fun id => ?_, fun id s hs => ?_⟩
  · rw [ha.find, hb.stored]
  · rw [← hb.stored] at hs
    obtain ⟨i, rfl, hi⟩ := find_some hs
    exact (ha.own i s hi).1

/-- A table of two: two connections, the first one deleted, its slot given to a
third, and a fourth refused. -/
theorem connectionTable_served :
    let calls : List (TableOp Nat) :=
      [.add (some 7), .add (some 8), .del 0, .find 0, .add (some 9), .add (some 7)]
    let t := (tableRun (alloc 2 fun _ => ⟨0, 0, ()⟩) calls).1
    t.slots.nfreed = 0 ∧ t.connectionTableFind 0 = .conn 9 ∧ t.connectionTableFind 1 = .conn 8 ∧
      (t.mem 9).id = 0 := by
  intro calls t
  have hrun := connectionTable_run 2 (fun _ => (⟨0, 0, ()⟩ : TableConn Unit)) calls
  have hnew : AddsNew Book.empty (tableRun (alloc 2 fun _ => (⟨0, 0, ()⟩ : TableConn Unit)) calls).2 := by
    have htrace : (tableRun (alloc 2 fun _ => (⟨0, 0, ()⟩ : TableConn Unit)) calls).2 =
        [(.add (some 7), .added 0), (.add (some 8), .added 1), (.del 0, .deleted), (.find 0, .found none),
          (.add (some 9), .added 0), (.add (some 7), .refused)] := by decide
    rw [htrace]
    refine ⟨?_, ?_, ?_, ?_, ?_, ?_, trivial⟩ <;> intro s id hc i <;> cases hc <;>
      simp only [Book.step, Book.empty, Function.update_apply] <;>
      (repeat' split) <;> simp
  obtain ⟨-, hfind, hid⟩ := hrun.2 hnew
  refine ⟨hrun.1.nfreed, (hfind 0).trans (by decide), (hfind 1).trans (by decide), hid 0 9 (by decide)⟩

/-- A connection is added twice and deleted under its first id: under the second
one `find` fails its assertion, although it is added there and not deleted. -/
theorem storedTwice_aborts :
    ¬ ∀ (cap : Nat) (mem : Nat → TableConn Unit) (ops : List (TableOp Nat)) (id : Int), 1 ≤ cap →
      (tableRun (alloc cap mem) ops).1.connectionTableFind id =
        ((book (tableRun (alloc cap mem) ops).2).stored id).elim .null .conn := by
  intro h
  have hrun := h 2 (fun _ => ⟨0, 0, ()⟩) [.add (some 7), .add (some 7), .del 0] 1 (by decide)
  exact absurd hrun (by decide)

end Sesstbl
end WafProxy
