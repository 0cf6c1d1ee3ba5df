import Mathlib.Algebra.Group.Nat.Defs
import WafProxy.Lib.TailQueue
import WafProxy.Packet

/-
  Packet queues — `pktq_in`, `pktq_out` and `pktq_join` of packet.c

  The other modules keep a `pktq_t` as the list of its packets. Here it is what
  the source has: a number, a first and a last packet, and the `next` of the
  packets. The number is a `u_int32_t`, and it is what the functions ask whether a
  queue is empty, so a queue that comes to hold 2^32 packets is an empty one to them.

  What is proved:
    1. `pktqIn_spec`, `pktqOut_spec`, `pktqJoin_spec` — what each function does to the list.
    2. `step_represents`, `run_represents` — over one operation and every run.
    3. `queues_fifo` — queues that start empty are the lists that the operations make.
    4. `lists_pktqIn`, `lists_pktqOut` — the lists are those of the other modules.

  Correspondence (C ↔ Lean):
    `pktq_t`                ↔ `Pktq`
    the `next` of packets   ↔ `PacketHeap.next`
    `pktq_in`               ↔ `PacketHeap.pktqIn`
    `pktq_out`              ↔ `PacketHeap.pktqOut`
    `pktq_join`             ↔ `PacketHeap.pktqJoin`
-/

namespace WafProxy
open Lib Lib.TailQueue Function

/-! ## The functions -/

/-- `pktq_t`, the packets being known by their addresses. -/
structure Pktq (K : Type) where
  len : UInt32
  head : Option K
  tail : Option K

/-- The queues and the links of the packets. -/
structure PacketHeap (Q K : Type) where
  queue : Q → Pktq K
  next : K → Option K

namespace PacketHeap
variable {Q K : Type} [DecidableEq Q] [DecidableEq K]

/-- `pktq_in`; `none` when it writes through a null pointer. -/
def pktqIn (s : PacketHeap Q K) : Option Q → Option K → Option (Int × PacketHeap Q K)
  | some q, some pkt =>
    let v := s.queue q
    let next := update s.next pkt none
    if v.len ≠ 0 then
      match v.tail with
      | none => none
      | some t =>
        some (0, { queue := update s.queue q { v with tail := some pkt, len := v.len + 1 }
                   next := update next t (some pkt) })
    else
      some (0, { queue := update s.queue q { head := some pkt, tail := some pkt, len := v.len + 1 }, next := next })
  | _, _ => some (-1, s)

/-- `pktq_out`. -/
def pktqOut (s : PacketHeap Q K) : Option Q → Option (Option K × PacketHeap Q K)
  | none => some (none, s)
  | some q =>
    let v := s.queue q
    if v.len = 0 then some (none, s)
    else
      match v.head with
      | none => none
      | some pkt =>
        some (some pkt,
          { queue := update s.queue q
              { head := s.next pkt, tail := if v.len = 1 then none else v.tail, len := v.len - 1 }
            next := update s.next pkt none })

/-- `pktq_join`. -/
def pktqJoin (s : PacketHeap Q K) : Option Q → Option Q → Option (Int × PacketHeap Q K)
  | some dq, some sq =>
    let d := s.queue dq
    let v := s.queue sq
    if v.len < 1 then some (0, s)
    else if 0 < d.len then
      match d.tail with
      | none => none
      | some t =>
        some (0, { queue := update (update s.queue dq { d with tail := v.tail, len := d.len + v.len }) sq
                     { len := 0, head := none, tail := none }
                   next := update s.next t v.head })
    else
      some (0, { s with
        queue := update (update s.queue dq { head := v.head, tail := v.tail, len := d.len + v.len }) sq
          { len := 0, head := none, tail := none } })
  | _, _ => some (-1, s)

/-! ## Runs -/

/-- What an operation returns; for a packet taken out also what its `next` is then. -/
inductive Result (K : Type) where
  | code (r : Int)
  | packet (pkt next : Option K)

/-- One operation. -/
def step (s : PacketHeap Q K) : Op Q K → Option (Result K × PacketHeap Q K)
  | .put q k => (s.pktqIn (some q) (some k)).map fun r => (.code r.1, r.2)
  | .take q => (s.pktqOut (some q)).map fun r => (.packet r.1 (r.1.bind r.2.next), r.2)
  | .join d q => (s.pktqJoin (some d) (some q)).map fun r => (.code r.1, r.2)

def run (s : PacketHeap Q K) : List (Op Q K) → Option (List (Result K) × PacketHeap Q K)
  | [] => some ([], s)
  | op :: ops => (s.step op).bind fun r => (r.2.run ops).map fun rs => (r.1 :: rs.1, rs.2)

end PacketHeap

/-! ## Lists -/

section
variable {Q K : Type} [DecidableEq Q]

/-- What an operation returns on lists: the first one is taken out, and nothing follows it. -/
def returned (L : Q → List K) : Op Q K → PacketHeap.Result K
  | .put _ _ => .code 0
  | .take q => .packet (L q).head? none
  | .join _ _ => .code 0

/-- What a run returns. -/
def results (L : Q → List K) : List (Op Q K) → List (PacketHeap.Result K)
  | [] => []
  | op :: ops => returned L op :: results (step L op) ops

/-- The lists behind a run. -/
def listsBehind (L : Q → List K) : List (Op Q K) → Q → List K
  | [] => L
  | op :: ops => listsBehind (step L op) ops

/-- Every operation of a run is allowed. -/
def AllowedRun (L : Q → List K) : List (Op Q K) → Prop
  | [] => True
  | op :: ops => Allowed L op ∧ AllowedRun (step L op) ops

/-- No queue comes to hold 2^32 packets. -/
def FitsRun (L : Q → List K) : List (Op Q K) → Prop
  | [] => True
  | op :: ops => (∀ q, (step L op q).length < 2 ^ 32) ∧ FitsRun (step L op) ops

end

/-- Each queue is a list. -/
structure Listed {Q K : Type} (idle : Option K → Option K → Prop) (s : PacketHeap Q K) (L : Q → List K) : Prop where
  queues : ∀ q, IsQueue idle s.next (s.queue q).head (s.queue q).tail (L q)
  len : ∀ q, (s.queue q).len.toNat = (L q).length

/-- They are, and no packet is in two places. -/
structure Represents {Q K : Type} (idle : Option K → Option K → Prop) (s : PacketHeap Q K) (L : Q → List K) : Prop
    extends Listed idle s L where
  apart : Apart L

section
variable {Q K : Type} {idle : Option K → Option K → Prop} {s : PacketHeap Q K} {L : Q → List K} {q d : Q} {k : K}

theorem Listed.len_zero (h : Listed idle s L) : (s.queue q).len = 0 ↔ L q = [] := by
  rw [← List.length_eq_zero_iff, ← h.len q]
  exact (UInt32.toNat_inj (b := 0)).symm

/-- A queue with packets has a first and a last one. -/
theorem Listed.tail_some (h : Listed idle s L) (hne : L q ≠ []) : ∃ t ∈ L q, (s.queue q).tail = some t := by
  obtain ⟨front, t, hl, ht⟩ := (h.queues q).tail_eq hne
  exact ⟨t, hl ▸ List.mem_append_right _ List.mem_cons_self, ht⟩

/-- Empty queues are empty lists. -/
theorem represents_empty (h : ∀ q, (s.queue q).len = 0 ∧ idle (s.queue q).head (s.queue q).tail) :
    Represents idle s fun _ => [] where
  queues := fun q => ⟨fun _ => (h q).2, fun hnil => absurd rfl hnil, fun hnil => absurd rfl hnil⟩
  len := fun q => by rw [(h q).1]; rfl
  apart := ⟨fun _ => List.nodup_nil, fun _ _ _ hk => absurd hk List.not_mem_nil⟩

variable [DecidableEq Q]

/-- One queue is written, and links of packets that are in no other one. -/
theorem Listed.change (h : Listed idle s L) {v : Pktq K} {l : List K} {next : K → Option K}
    (hq : IsQueue idle next v.head v.tail l) (hlen : v.len.toNat = l.length)
    (hkeep : ∀ p, p ≠ q → ∀ x ∈ L p, next x = s.next x) :
    Listed idle { queue := update s.queue q v, next := next } (update L q l) := by
  constructor
  · intro p
    show IsQueue idle next (update s.queue q v p).head (update s.queue q v p).tail (update L q l p)
    -- the queue that is written, and the others, whose packets keep their links
    by_cases hp : p = q
    · subst hp
      rw [update_self, update_self]
      exact hq
    · rw [update_of_ne hp, update_of_ne hp]
      exact (h.queues p).frame (hkeep p hp)
  · intro p
    show (update s.queue q v p).len.toNat = (update L q l p).length
    by_cases hp : p = q
    · subst hp
      rw [update_self, update_self]
      exact hlen
    · rw [update_of_ne hp, update_of_ne hp]
      exact h.len p

/-- What is behind the writes of a join. -/
theorem Represents.joined (hidle : idle none none) (h : Represents idle s L) (hne : d ≠ q) {v : Pktq K}
    {next : K → Option K} (hqueue : IsQueue idle next v.head v.tail (L d ++ L q))
    (hlen : v.len.toNat = (L d ++ L q).length) (hkeep : ∀ p, p ≠ d → ∀ x ∈ L p, next x = s.next x) :
    Represents idle { queue := update (update s.queue d v) q { len := 0, head := none, tail := none }, next :=
      next }
      (TailQueue.step L (.join d q)) := by
  have hempty : IsQueue idle next none none ([] : List K) :=
    ⟨fun _ => hidle, fun hnil => absurd rfl hnil, fun hnil => absurd rfl hnil⟩
  have hfirst := h.toListed.change hqueue hlen hkeep
  have hapart : Apart (TailQueue.step L (.join d q : Op Q K)) := step_apart h.apart hne
  exact ⟨@Listed.change _ _ _ _ _ q _ hfirst ⟨0, none, none⟩ _ _ hempty rfl fun _ _ _ _ => rfl, hapart⟩

variable [DecidableEq K]

/-! ## Each function -/

/-- **A packet is put** behind the last one. -/
theorem pktqIn_spec (h : Represents idle s L) (hk : ∀ q, k ∉ L q) (hfits : (L q).length + 1 < 2 ^ 32) :
    ∃ s', s.pktqIn (some q) (some k) = some (0, s') ∧ Represents idle s' (TailQueue.step L (.put q k)) := by
  have hlen : ((s.queue q).len + 1).toNat = (L q ++ [k]).length := by
    rw [UInt32.toNat_add, h.len q, List.length_append]
    exact Nat.mod_eq_of_lt hfits
  have hapart : Apart (TailQueue.step L (.put q k)) := step_apart h.apart hk
  unfold PacketHeap.pktqIn
  dsimp only
  -- `len` says whether there is a last packet whose link is to be written
  by_cases hl : L q = []
  · rw [if_neg (fun hne => hne (h.len_zero.mpr hl))]
    refine ⟨_, rfl, ⟨h.toListed.change ?_ hlen fun p _ => update_keep (hk p) none, hapart⟩⟩
    rw [hl]
    exact IsQueue.put_nil
  · obtain ⟨t, ht, htail⟩ := h.tail_some hl
    have hqueue := h.queues q
    rw [htail] at hqueue
    rw [if_pos (fun hzero => hl (h.len_zero.mp hzero)), htail]
    refine ⟨_, rfl, ⟨h.toListed.change (hqueue.put hl (h.apart.nodup q) (hk q)) hlen fun p hp x hx => ?_, hapart⟩⟩
    -- neither the new packet nor the last one of this queue is in another
    have htp : t ∉ L p := fun hmem => hp (h.apart.one p q t hmem ht)
    rw [update_keep htp (some k) x hx, update_keep (hk p) none x hx]

/-- **The first packet is taken out**, and nothing follows it. -/
theorem pktqOut_spec (hidle : idle none none) (h : Represents idle s L) :
    ∃ s', s.pktqOut (some q) = some ((L q).head?, s') ∧ (L q).head?.bind s'.next = none ∧
      Represents idle s' (TailQueue.step L (.take q)) := by
  have hapart : Apart (TailQueue.step L (.take q : Op Q K)) := step_apart h.apart trivial
  rw [step_take] at hapart ⊢
  unfold PacketHeap.pktqOut
  dsimp only
  cases hl : L q with
  | nil =>
    rw [if_pos (h.len_zero.mpr hl)]
    have hsame := update_eq_self q L
    rw [hl] at hsame
    refine ⟨s, rfl, rfl, ?_⟩
    show Represents idle s (update L q [])
    rw [hsame]
    exact h
  | cons k l =>
    have hlen := h.len q
    have hqueue := h.queues q
    rw [hl] at hlen hqueue hapart
    have hk := (List.nodup_cons.mp (hl ▸ h.apart.nodup q)).1
    have hne : (s.queue q).len ≠ 0 := fun hzero => by
      rw [h.len_zero.mp hzero] at hl
      cases hl
    -- only the last packet taken clears `tail`
    have hone : ((s.queue q).len = 1) ↔ l = [] := by
      rw [← UInt32.toNat_inj, hlen, List.length_cons, ← List.length_eq_zero_iff]
      exact Nat.succ_inj
    rw [if_neg hne, hqueue.head_eq]
    refine ⟨_, rfl, show update s.next k none k = none from update_self k none s.next,
      ⟨h.toListed.change ?_ ?_ fun p hp => ?_, hapart⟩⟩
    · show IsQueue idle _ (s.next k) (if (s.queue q).len = 1 then none else (s.queue q).tail) l
      rw [if_congr hone rfl rfl]
      exact hqueue.take hidle hk
    · show ((s.queue q).len - 1).toNat = l.length
      rw [UInt32.toNat_sub_of_le _ _
        (by rw [UInt32.le_iff_toNat_le, hlen]; exact Nat.succ_le_of_lt (Nat.succ_pos _)), hlen]
      rfl
    · exact update_keep (fun hmem => hp (h.apart.one p q k hmem (hl ▸ List.mem_cons_self))) none

/-- **One queue goes behind another**, and is empty. -/
theorem pktqJoin_spec (hidle : idle none none) (h : Represents idle s L) (hne : d ≠ q)
    (hfits : (L d ++ L q).length < 2 ^ 32) :
    ∃ s', s.pktqJoin (some d) (some q) = some (0, s') ∧ Represents idle s' (TailQueue.step L (.join d q)) := by
  have hlen : ((s.queue d).len + (s.queue q).len).toNat = (L d ++ L q).length := by
    rw [UInt32.toNat_add, h.len d, h.len q, List.length_append]
    exact Nat.mod_eq_of_lt (by rwa [List.length_append] at hfits)
  unfold PacketHeap.pktqJoin
  dsimp only
  by_cases hq : L q = []
  · have hzero : (s.queue q).len < 1 := by
      rw [h.len_zero.mpr hq]
      decide
    have hsame : TailQueue.step L (.join d q : Op Q K) = L := by
      rw [step_join, hq, List.append_nil, update_eq_self, ← hq, update_eq_self]
    rw [if_pos hzero, hsame]
    exact ⟨s, rfl, h⟩
  · have hsome : ¬ (s.queue q).len < 1 := by
      intro hlt
      have hnat := UInt32.lt_iff_toNat_lt.mp hlt
      exact hq (h.len_zero.mp (UInt32.toNat_inj.mp (Nat.lt_one_iff.mp hnat)))
    rw [if_neg hsome]
    -- an empty queue takes over the other one as it is
    by_cases hd : L d = []
    · have hzero : ¬ 0 < (s.queue d).len := by
        rw [h.len_zero.mpr hd]
        decide
      have hqueue : IsQueue idle s.next (s.queue q).head (s.queue q).tail (L d ++ L q) := by
        rw [hd]
        exact h.queues q
      rw [if_neg hzero]
      exact ⟨_, rfl, h.joined hidle hne (v := ⟨_, _, _⟩) hqueue hlen fun _ _ _ _ => rfl⟩
    · have hpos : 0 < (s.queue d).len := by
        rw [UInt32.lt_iff_toNat_lt, h.len d]
        exact List.length_pos_iff.mpr hd
      obtain ⟨t, ht, htail⟩ := h.tail_some hd
      have hfront := h.queues d
      rw [htail] at hfront
      have hqueue := hfront.join (h.queues q) hd hq (h.apart.nodup d) fun k hk hk' => hne (h.apart.one d q k hk hk')
      rw [if_pos hpos, htail]
      -- the last packet of the one queue is in no other
      exact ⟨_, rfl, h.joined hidle hne (v := ⟨_, _, _⟩) hqueue hlen fun p hp =>
        update_keep (fun hmem => hp (h.apart.one p d t hmem ht)) _⟩

/-! ## Runs -/

/-- **One operation.** -/
theorem step_represents (hidle : idle none none) {op : Op Q K} (h : Represents idle s L) (hop : Allowed L op)
    (hfits : ∀ q, (TailQueue.step L op q).length < 2 ^ 32) :
    ∃ s', s.step op = some (returned L op, s') ∧ Represents idle s' (TailQueue.step L op) := by
  cases op with
  | put q k =>
    have hlen := hfits q
    rw [step_put, update_self, List.length_append] at hlen
    obtain ⟨s', hrun, hs'⟩ := pktqIn_spec h hop hlen
    refine ⟨s', ?_, hs'⟩
    rw [PacketHeap.step, hrun]
    rfl
  | take q =>
    obtain ⟨s', hrun, hnext, hs'⟩ := @pktqOut_spec _ _ _ _ _ q _ _ hidle h
    refine ⟨s', ?_, hs'⟩
    rw [PacketHeap.step, hrun, Option.map_some, hnext]
    rfl
  | join d q =>
    have hlen := hfits d
    have hne : d ≠ q := hop
    rw [step_join, update_of_ne hne, update_self] at hlen
    obtain ⟨s', hrun, hs'⟩ := pktqJoin_spec hidle h hne hlen
    refine ⟨s', ?_, hs'⟩
    rw [PacketHeap.step, hrun]
    rfl

/-- **Every run.** -/
theorem run_represents (hidle : idle none none) {ops : List (Op Q K)} : ∀ {s : PacketHeap Q K} {L : Q → List K},
    Represents idle s L → AllowedRun L ops → FitsRun L ops →
      ∃ s', s.run ops = some (results L ops, s') ∧ Represents idle s' (listsBehind L ops) := by
  -- on the operations; the invariant is that every queue is its list
  induction ops with
  | nil => exact fun h _ _ => ⟨_, rfl, h⟩
  | cons op ops ih =>
    intro s L h hallowed hfits
    obtain ⟨s₁, hstep, h₁⟩ := step_represents hidle h hallowed.1 hfits.1
    obtain ⟨s', hrun, h'⟩ := ih h₁ hallowed.2 hfits.2
    refine ⟨s', ?_, h'⟩
    rw [PacketHeap.run, hstep, Option.bind_some, hrun]
    rfl

end

/-- **Packet queues are lists.** Queues that are empty at first are what the operations make of empty lists,
whatever an empty one has for its first and last packet; every operation returns what it does on lists. -/
theorem queues_fifo {Q K : Type} [DecidableEq Q] [DecidableEq K] {idle : Option K → Option K → Prop}
    (hidle : idle none none) {s : PacketHeap Q K}
    (hstart : ∀ q, (s.queue q).len = 0 ∧ idle (s.queue q).head (s.queue q).tail) {ops : List (Op Q K)}
    (hallowed : AllowedRun (fun _ => []) ops) (hfits : FitsRun (fun _ => []) ops) :
    ∃ s', s.run ops = some (results (fun _ => []) ops, s') ∧ Represents idle s' (listsBehind (fun _ => []) ops) :=
  run_represents hidle (represents_empty hstart) hallowed hfits

/-- The list of a queue, with what is in the packets, is the one the other modules put packets in. -/
theorem lists_pktqIn {Q K : Type} [DecidableEq Q] (packet : K → Packet) (L : Q → List K) (q : Q) (k : K) :
    (TailQueue.step L (.put q k) q).map packet = pktqIn ((L q).map packet) (packet k) := by
  rw [step_put, update_self, List.map_append]
  rfl

/-- And the one they take packets out of. -/
theorem lists_pktqOut {Q K : Type} [DecidableEq Q] (packet : K → Packet) (L : Q → List K) (q : Q) :
    pktqOut ((L q).map packet) =
      (L q).head?.map fun k => (packet k, (TailQueue.step L (.take q) q).map packet) := by
  rw [step_take, update_self]
  cases L q <;> rfl

/-- Two empty queues. -/
def emptyQueues : PacketHeap Bool Nat := { queue := fun _ => ⟨0, none, none⟩, next := fun _ => none }

/-- Two packets in one queue, one in the other, which goes behind the first; then one is taken out. -/
theorem queues_fifo_mixed :
    ∃ s', emptyQueues.run [.put true 1, .put true 2, .put false 3, .join true false, .take true] =
        some ([.code 0, .code 0, .code 0, .code 0, .packet (some 1) none], s') ∧
      Represents (fun head tail => head = none ∧ tail = none) s'
        (listsBehind (fun _ => []) [.put true 1, .put true 2, .put false 3, .join true false, .take true]) := by
  apply @queues_fifo _ _ _ _ (fun head tail => head = none ∧ tail = none) ⟨rfl, rfl⟩ emptyQueues
    (fun _ => ⟨rfl, rfl, rfl⟩) [.put true 1, .put true 2, .put false 3, .join true false, .take true]
  · refine ⟨?_, ?_, ?_, ?_, trivial, trivial⟩
    all_goals (unfold Allowed; decide)
  · refine ⟨?_, ?_, ?_, ?_, ?_, trivial⟩
    all_goals decide

/-! ## 2^32 packets -/

/-- As many packets are put in one queue. -/
def fillOps (n : Nat) : List (Op Unit Nat) := (List.range n).map (.put ())

def emptyQueue : PacketHeap Unit Nat := { queue := fun _ => ⟨0, none, none⟩, next := fun _ => none }

theorem run_append {Q K : Type} [DecidableEq Q] [DecidableEq K] {ops ops' : List (Op Q K)} :
    ∀ {s s₁ s' : PacketHeap Q K} {rs rs' : List (PacketHeap.Result K)}, s.run ops = some (rs, s₁) →
      s₁.run ops' = some (rs', s') → s.run (ops ++ ops') = some (rs ++ rs', s') := by
  induction ops with
  | nil =>
    intro s s₁ s' rs rs' hrun hrun'
    cases hrun
    exact hrun'
  | cons op ops ih =>
    intro s s₁ s' rs rs' hrun hrun'
    rw [PacketHeap.run, Option.bind_eq_some_iff] at hrun
    obtain ⟨r, hstep, hrest⟩ := hrun
    obtain ⟨⟨rest, s₂⟩, hinner, heq⟩ := Option.map_eq_some_iff.mp hrest
    cases heq
    rw [List.cons_append, PacketHeap.run, hstep, Option.bind_some, ih hinner hrun']
    rfl

theorem puts_spec (l : List Nat) : ∀ {L : Unit → List Nat}, (L () ++ l).Nodup →
    AllowedRun L (l.map (.put ())) ∧ listsBehind L (l.map (.put ())) = (fun _ => L () ++ l) ∧
      ((L () ++ l).length < 2 ^ 32 → FitsRun L (l.map (.put ()))) := by
  induction l with
  | nil =>
    intro L _
    refine ⟨trivial, ?_, fun _ => trivial⟩
    funext q
    rw [List.append_nil]
    rfl
  | cons k l ih =>
    intro L hnd
    have hstep : TailQueue.step L (.put () k) () = L () ++ [k] := update_self () _ L
    have hsame : L () ++ k :: l = TailQueue.step L (.put () k) () ++ l := by
      rw [hstep, List.append_assoc]
      rfl
    rw [hsame] at hnd
    obtain ⟨hallowed, hlists, hfits⟩ := ih hnd
    have hk : k ∉ L () := by
      rw [hstep, List.append_assoc] at hnd
      exact fun hmem => (List.nodup_append.mp hnd).2.2 k hmem k List.mem_cons_self rfl
    refine ⟨⟨fun _ => hk, hallowed⟩, ?_, fun hlen => ⟨fun q => ?_, ?_⟩⟩
    · rw [hsame]
      exact hlists
    · rw [hsame, List.length_append] at hlen
      exact Nat.lt_of_le_of_lt (Nat.le_add_right _ _) hlen
    · rw [hsame] at hlen
      exact hfits hlen

theorem fill_lists {n : Nat} : AllowedRun (fun _ => []) (fillOps n) ∧
    (listsBehind (fun _ => []) (fillOps n) ()).length = n := by
  obtain ⟨hallowed, hlists, -⟩ := @puts_spec (List.range n) (fun _ => []) List.nodup_range
  refine ⟨hallowed, ?_⟩
  rw [fillOps, hlists]
  exact List.length_range

/-- The queue is empty to `pktq_out` when it holds 2^32 packets. -/
theorem fill_overflows {n : Nat} (hn : n = 2 ^ 32) :
    AllowedRun (fun _ => []) (fillOps n) ∧ ∃ rs s', emptyQueue.run (fillOps n) = some (rs, s') ∧
      s'.pktqOut (some ()) = some (none, s') ∧ listsBehind (fun _ => []) (fillOps n) () ≠ [] ∧
      ∀ idle, ¬ Represents idle s' (listsBehind (fun _ => []) (fillOps n)) := by
  obtain ⟨hallowed, hcount⟩ := @fill_lists n
  obtain ⟨m, rfl⟩ : ∃ m, n = m + 1 := ⟨n - 1, by omega⟩
  obtain ⟨hallowed', hlists', hfits⟩ := @puts_spec (List.range m) (fun _ => []) List.nodup_range
  have hlength : ([] ++ List.range m).length = m := List.length_range
  obtain ⟨s₁, hrun, h₁⟩ := @run_represents _ _ (fun head tail => head = none ∧ tail = none) _ _ ⟨rfl, rfl⟩
    ((List.range m).map (.put ())) emptyQueue _ (represents_empty fun _ => ⟨rfl, rfl, rfl⟩) hallowed'
    (hfits (by rw [hlength]; omega))
  have hlen := h₁.len ()
  rw [hlists', hlength] at hlen
  have hne : (s₁.queue ()).len ≠ 0 := by
    intro hzero
    rw [hzero] at hlen
    exact absurd hlen (show 0 ≠ m by omega)
  have hmem : listsBehind (fun _ => []) ((List.range m).map (.put ())) () ≠ [] := fun hnil =>
    hne (h₁.len_zero.mpr hnil)
  obtain ⟨t, -, htail⟩ := h₁.tail_some hmem
  have hin : ∃ s', s₁.pktqIn (some ()) (some m) = some (0, s') ∧ (s'.queue ()).len = (s₁.queue ()).len + 1 := by
    unfold PacketHeap.pktqIn
    dsimp only
    rw [if_pos hne, htail]
    exact ⟨_, rfl, congrArg Pktq.len (update_self () _ s₁.queue)⟩
  obtain ⟨s', hin, hlen'⟩ := hin
  have hzero : (s'.queue ()).len = 0 := by
    rw [hlen', ← UInt32.toNat_inj, UInt32.toNat_add, hlen]
    show (m + 1) % 2 ^ 32 = 0
    rw [hn, Nat.mod_self]
  have hstep : s₁.run [.put () m] = some ([.code 0], s') := by
    rw [PacketHeap.run, PacketHeap.step, hin]
    rfl
  have hboth := run_append hrun hstep
  have hops : fillOps (m + 1) = (List.range m).map (.put ()) ++ [.put () m] := by
    rw [fillOps, List.range_succ, List.map_append]
    rfl
  rw [← hops] at hboth
  refine ⟨hallowed, _, s', hboth, if_pos hzero, fun hnil => ?_, fun idle h => ?_⟩
  · rw [hnil] at hcount
    exact absurd hcount (show 0 ≠ m + 1 by omega)
  · have hsame := (h.len ()).trans hcount
    rw [hzero] at hsame
    exact absurd hsame (show 0 ≠ m + 1 by omega)

/-- After 2^32 packets are put in an empty queue, none comes out and the queue is not the list of them. -/
theorem queues_overflow :
    AllowedRun (fun _ => []) (fillOps (2 ^ 32)) ∧
    ∃ rs s', emptyQueue.run (fillOps (2 ^ 32)) = some (rs, s') ∧ s'.pktqOut (some ()) = some (none, s') ∧
      listsBehind (fun _ => []) (fillOps (2 ^ 32)) () ≠ [] ∧
      ∀ idle, ¬ Represents idle s' (listsBehind (fun _ => []) (fillOps (2 ^ 32))) :=
  fill_overflows rfl

end WafProxy
