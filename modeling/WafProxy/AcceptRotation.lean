import WafProxy.Lib.RoundRobin
import WafProxy.NowLive

/-
  Which worker gets a client — accept.c, `ai->index`

  `_accept_client` hands a client to the worker `ai->index` and moves the index
  on only when `work_add_connection` has taken it. Here the clients are followed
  from the hand-over to the worker that takes them, with all the workers, the
  clock and the closing of connections between.

  What is proved:
    1. `Rotates.step` — what a step does to the index, to the order of the
       clients and to the queues of the workers.
    2. `rotation_run` — the clients are dealt round: what a worker takes as its
       `i`-th client is the client handed over as number `i * nwork + w`, none
       is lost between, and the numbers of any two workers differ by at most one.

  Correspondence (C ↔ Lean):
    the call of `work_add_connection` that returns 0   ↔ `LiveCount.handsOver`
    `wfd` in the loop of `_work_get_connection`        ↔ `LiveCount.takes`
    `ai->index` over a run                             ↔ `rotation`
-/

namespace WafProxy
open Lib

/-! ## The clients in their order -/

/-- The worker and the client, when the hand-over succeeds in this state. -/
def LiveCount.handsOver (st : LiveCount) : Option (Nat × Nat) :=
  match st.pc with
  | .checked fd =>
    (st.works[st.index]?).bind fun wi =>
      if wi.max < 1 ∨ wi.max ≤ wi.inq.length then none else some (st.index, fd)
  | _ => none

/-- The worker and the client its loop is at. -/
def LiveCount.takes (st : LiveCount) (w : Nat) : Option (Nat × Nat) :=
  (st.works[w]?).bind fun wi => wi.inq2.head?.map fun fd => (w, fd)

/-- The clients handed over and the clients taken, each with the worker, in order. -/
structure Dealing where
  assigned : List (Nat × Nat) := []
  taken : List (Nat × Nat) := []
  deriving DecidableEq, Repr

namespace Dealing

def note (st : LiveCount) (i : LiveCountInput) (d : Dealing) : Dealing :=
  match i with
  | .handOver => { d with assigned := d.assigned ++ st.handsOver.toList }
  | .take w _ => { d with taken := d.taken ++ (st.takes w).toList }
  | .accept _ | .count | .get _ | .free _ _ | .tick => d

/-- The clients handed over to `w`. -/
def assignedTo (d : Dealing) (w : Nat) : List Nat := (dealtTo Prod.fst w d.assigned).map Prod.snd

/-- The clients `w` has taken. -/
def takenBy (d : Dealing) (w : Nat) : List Nat := (dealtTo Prod.fst w d.taken).map Prod.snd

theorem assignedTo_concat (d : Dealing) (v fd w : Nat) :
    { d with assigned := d.assigned ++ [(v, fd)] }.assignedTo w =
      d.assignedTo w ++ if v = w then [fd] else [] := by
  rw [assignedTo, dealtTo_concat, List.map_append]
  by_cases h : v = w
  · simp [assignedTo, h]
  · simp [assignedTo, h]

theorem takenBy_concat (d : Dealing) (v fd w : Nat) :
    { d with taken := d.taken ++ [(v, fd)] }.takenBy w = d.takenBy w ++ if v = w then [fd] else [] := by
  rw [takenBy, dealtTo_concat, List.map_append]
  by_cases h : v = w
  · simp [takenBy, h]
  · simp [takenBy, h]

end Dealing

/-- The clients a worker has waiting, first the next to be taken. -/
def WorkClients.waiting (wi : WorkClients) : List Nat := wi.inq2 ++ wi.inq

/-- The threads, with the order of the clients beside. -/
def rotation (max : UInt32) (maxs : List Nat) : Machine (LiveCount × Dealing) LiveCountInput :=
  (liveCount max maxs).observe Dealing.note {}

/-! ## What a step keeps -/

/-- The clients are dealt round, and `index` is the next worker (the accept thread moves
it on when it has counted the client). -/
structure Rotates (n : Nat) (st : LiveCount) (d : Dealing) : Prop where
  works : st.works.length = n
  dealt : Dealt n Prod.fst d.assigned
  index : ∃ k, k + st.pc.uncounted = d.assigned.length ∧ st.index = k % n
  queues : ∀ w wi, st.works[w]? = some wi → d.assignedTo w = d.takenBy w ++ wi.waiting

/-- A step that leaves the order and the queues alone. -/
theorem Rotates.same {n : Nat} {st st' : LiveCount} {d : Dealing} (h : Rotates n st d)
    (hworks : st'.works = st.works) (hpc : st'.pc.uncounted = st.pc.uncounted) (hindex : st'.index = st.index) :
    Rotates n st' d where
  works := hworks ▸ h.works
  dealt := h.dealt
  index := by
    rw [hpc, hindex]
    exact h.index
  queues := hworks ▸ h.queues

/-- A step that changes one worker and has its client, if any, taken. -/
theorem Rotates.worker {n : Nat} {st st' : LiveCount} {d d' : Dealing} {w : Nat} {wi wi' : WorkClients}
    (h : Rotates n st d) (hwi : st.works[w]? = some wi) (hworks : st'.works = st.works.set w wi')
    (hpc : st'.pc = st.pc) (hindex : st'.index = st.index) (hassigned : d'.assigned = d.assigned)
    (hother : ∀ v, v ≠ w → d'.takenBy v = d.takenBy v)
    (hthis : d'.takenBy w ++ wi'.waiting = d.takenBy w ++ wi.waiting) : Rotates n st' d' where
  works := by rw [hworks, List.length_set, h.works]
  dealt := hassigned ▸ h.dealt
  index := by
    rw [hpc, hindex, hassigned]
    exact h.index
  queues := by
    intro v vi hvi
    have hto : d'.assignedTo v = d.assignedTo v := by rw [Dealing.assignedTo, hassigned, Dealing.assignedTo]
    rw [hworks] at hvi
    by_cases hv : v = w
    · subst hv
      have hlt := (List.getElem?_eq_some_iff.mp hwi).1
      rw [List.getElem?_set_self hlt] at hvi
      cases hvi
      rw [hto, hthis]
      exact h.queues v wi hwi
    · rw [List.getElem?_set_ne (Ne.symm hv)] at hvi
      rw [hto, hother v hv]
      exact h.queues v vi hvi

/-- **A step.** -/
theorem Rotates.step {n : Nat} {max : UInt32} {st st' : LiveCount} {d : Dealing} {i : LiveCountInput}
    (hn : 0 < n) (h : Rotates n st d) (hstep : liveCountStep max st i = some st') :
    Rotates n st' (d.note st i) := by
  cases i with
  | accept fd =>
    simp only [liveCountStep] at hstep
    split at hstep
    next hnew =>
      split at hstep <;> cases hstep
      · exact h
      · apply h.same
        · rfl
        · rw [hnew.1]
          rfl
        · rfl
    · cases hstep
  | handOver =>
    simp only [liveCountStep] at hstep
    split at hstep
    next fd hpc =>
      split at hstep
      next hnone =>
        cases hstep
        have hno : st.handsOver = none := by simp [LiveCount.handsOver, hpc, hnone]
        have hnote : d.note st .handOver = d := by simp [Dealing.note, hno]
        rw [hnote]
        exact h.same rfl (by rw [hpc]; rfl) rfl
      next wi hwi =>
        split at hstep
        next hfull =>
          cases hstep
          have hno : st.handsOver = none := by
            simp only [LiveCount.handsOver, hpc, hwi, Option.bind_some, if_pos hfull]
          have hnote : d.note st .handOver = d := by simp [Dealing.note, hno]
          rw [hnote]
          exact h.same rfl (by rw [hpc]; rfl) rfl
        next hroom =>
          cases hstep
          have hyes : st.handsOver = some (st.index, fd) := by
            simp only [LiveCount.handsOver, hpc, hwi, Option.bind_some, if_neg hroom]
          have hnote : d.note st .handOver = { d with assigned := d.assigned ++ [(st.index, fd)] } := by
            simp [Dealing.note, hyes]
          obtain ⟨k, hk, hindex⟩ := h.index
          rw [hpc] at hk
          have hlen : k = d.assigned.length := hk
          rw [hnote]
          constructor
          · show (st.works.set _ _).length = n
            rw [List.length_set, h.works]
          · exact dealt_concat.mpr ⟨h.dealt, hlen ▸ hindex⟩
          · refine ⟨k, ?_, hindex⟩
            rw [hlen, List.length_append]
            rfl
          · intro v vi hvi
            rw [Dealing.assignedTo_concat]
            have hv' : (st.works.set st.index { wi with inq := wi.inq ++ [fd] })[v]? = some vi := hvi
            by_cases hv : st.index = v
            · subst hv
              have hlt := (List.getElem?_eq_some_iff.mp hwi).1
              rw [List.getElem?_set_self hlt] at hv'
              cases hv'
              rw [if_pos rfl, h.queues _ wi hwi]
              show _ = d.takenBy st.index ++ (wi.inq2 ++ (wi.inq ++ [fd]))
              rw [WorkClients.waiting, List.append_assoc, List.append_assoc]
            · rw [List.getElem?_set_ne hv] at hv'
              rw [if_neg hv, List.append_nil]
              exact h.queues v vi hv'
    · cases hstep
  | count =>
    simp only [liveCountStep] at hstep
    split at hstep
    next fd hpc =>
      cases hstep
      obtain ⟨k, hk, hindex⟩ := h.index
      rw [hpc] at hk
      refine ⟨h.works, h.dealt, ⟨k + 1, hk, ?_⟩, h.queues⟩
      show (if st.works.length ≤ st.index + 1 then 0 else st.index + 1) = (k + 1) % n
      have hlt : k % n < n := Nat.mod_lt _ hn
      rw [h.works, hindex, Nat.add_mod_eq_ite]
      by_cases hone : n = 1
      · simp [hone, Nat.mod_one]
      · rw [Nat.mod_eq_of_lt (show 1 < n by omega)]
        by_cases hlast : n ≤ k % n + 1
        · rw [if_pos hlast, if_pos hlast]
          omega
        · rw [if_neg hlast, if_neg hlast]
    · cases hstep
  | get w =>
    simp only [liveCountStep] at hstep
    split at hstep
    · cases hstep
    next wi hwi =>
      split at hstep
      next hempty =>
        cases hstep
        refine h.worker hwi rfl rfl rfl rfl (fun _ _ => rfl) ?_
        show d.takenBy w ++ (wi.inq ++ []) = d.takenBy w ++ (wi.inq2 ++ wi.inq)
        rw [hempty, List.append_nil, List.nil_append]
      · cases hstep
  | take w a =>
    simp only [liveCountStep] at hstep
    split at hstep
    · cases hstep
    next wi hwi =>
      split at hstep
      · cases hstep
      next fd rest hinq2 =>
        cases hstep
        have hyes : st.takes w = some (w, fd) := by simp [LiveCount.takes, hwi, hinq2]
        have hnote : d.note st (.take w a) = { d with taken := d.taken ++ [(w, fd)] } := by
          simp [Dealing.note, hyes]
        -- the queues do not depend on how the turn of the loop ends
        have hqueues : ({ wi with inq2 := rest }.takeFd a fd).2.waiting = rest ++ wi.inq := by
          rw [WorkClients.takeFd]
          split_ifs <;> rfl
        rw [hnote]
        refine h.worker hwi rfl rfl rfl rfl (fun v hv => ?_) ?_
        · rw [Dealing.takenBy_concat, if_neg (Ne.symm hv), List.append_nil]
        · rw [Dealing.takenBy_concat, if_pos rfl, hqueues, WorkClients.waiting, hinq2]
          simp
  | free w fd =>
    simp only [liveCountStep] at hstep
    split at hstep
    · cases hstep
    next wi hwi =>
      split at hstep
      · cases hstep
        exact h.worker hwi rfl rfl rfl rfl (fun _ _ => rfl) rfl
      · cases hstep
  | tick =>
    cases hstep
    exact h.same rfl rfl rfl

/-! ## Runs -/

theorem rotates_init (max : UInt32) (maxs : List Nat) : Rotates maxs.length (liveCount max maxs).init {} where
  works := List.length_map _
  dealt := dealt_nil
  index := ⟨0, rfl, (Nat.zero_mod _).symm⟩
  queues := by
    intro w wi hwi
    have hnew : ((maxs.map fun m : Nat => ({ max := m } : WorkClients))[w]?) = some wi := hwi
    rw [List.getElem?_map] at hnew
    obtain ⟨m, -, rfl⟩ := Option.map_eq_some_iff.mp hnew
    rfl

/-- **The clients are dealt round to the workers**, in every run of the accept thread, the
workers and the clock: the `i`-th client a worker takes is the one handed over as number
`i * nwork + w`, what it has not taken yet waits in its queues in order, and no worker has
been given two clients more than another. -/
theorem rotation_run (max : UInt32) {maxs : List Nat} (hworks : maxs ≠ []) (is : List LiveCountInput)
    {st : LiveCount} {d : Dealing} (hrun : (rotation max maxs).run (rotation max maxs).init is = some (st, d)) :
    (∀ w < maxs.length, ∀ i fd, (d.takenBy w)[i]? = some fd → d.assigned[i * maxs.length + w]? = some (w, fd)) ∧
    (∀ w wi, st.works[w]? = some wi → d.assignedTo w = d.takenBy w ++ wi.waiting) ∧
    ∀ w < maxs.length, ∀ w' < maxs.length, (d.assignedTo w).length ≤ (d.assignedTo w').length + 1 := by
  have hn : 0 < maxs.length := List.length_pos_iff.mpr hworks
  have hstep : ∀ (s : LiveCount × Dealing) i s', Rotates maxs.length s.1 s.2 →
      (rotation max maxs).step s i = some s' → Rotates maxs.length s'.1 s'.2 := by
    intro s i s' h hs
    obtain ⟨st', hst, rfl⟩ := Option.map_eq_some_iff.mp hs
    exact h.step hn hst
  have h : Rotates maxs.length st d := Machine.run_inv' hstep (rotates_init max maxs) hrun
  refine ⟨fun w hw i fd hfd => ?_, h.queues, fun w hw w' hw' => ?_⟩
  · have hlt : w < st.works.length := h.works.symm ▸ hw
    have hall := h.queues w _ (List.getElem?_eq_getElem hlt)
    have hto : (d.assignedTo w)[i]? = some fd := by
      rw [hall, List.getElem?_append_left (List.getElem?_eq_some_iff.mp hfd).1]
      exact hfd
    rw [Dealing.assignedTo, List.getElem?_map, dealt_get hw h.dealt] at hto
    obtain ⟨x, hx, hfd⟩ := Option.map_eq_some_iff.mp hto
    have hfst : x.1 = w := by
      rw [h.dealt _ x hx, Nat.mul_add_mod_self_right, Nat.mod_eq_of_lt hw]
    rw [hx, ← hfst, ← hfd]
  · rw [Dealing.assignedTo, Dealing.assignedTo, List.length_map, List.length_map]
    exact dealt_balanced hw hw' h.dealt

/-- Three clients for two workers; the first of them is taken. -/
def threeClients : List LiveCountInput :=
  [.accept 5, .handOver, .count, .accept 6, .handOver, .count, .accept 7, .handOver, .get 0,
    .take 0 ⟨true, true⟩]

theorem rotation_run_three : ∃ st d,
    (rotation 10 [4, 4]).run (rotation 10 [4, 4]).init threeClients = some (st, d) ∧
    ∀ w < 2, ∀ w' < 2, (d.assignedTo w).length ≤ (d.assignedTo w').length + 1 := by
  have hsome : ((rotation 10 [4, 4]).run (rotation 10 [4, 4]).init threeClients).isSome = true := by
    decide +kernel
  obtain ⟨r, hrun⟩ := Option.isSome_iff_exists.mp hsome
  exact ⟨r.1, r.2, hrun, (rotation_run 10 (List.cons_ne_nil 4 [4]) threeClients hrun).2.2⟩

end WafProxy
