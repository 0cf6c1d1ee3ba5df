import Mathlib.Data.List.Perm.Subperm

/-
  Breadth-first passes over a tree

  A loop takes the node at the head of a queue, works on it and appends its
  children. On a finite tree it takes every node once, and every node after all
  the nodes of smaller depth.

  Rules:
    1. `Sweep.start`, `Sweep.step` — the invariant of the queue.
    2. `Sweep.done_of_depth` — what is done when a node is at the head.
    3. `Sweep.complete` — an empty queue: every node is done.
    4. `queueLoop_rule` — the rule for the loop: an invariant that the work on one
       node keeps holds when the loop ends, and the loop does end.
-/

namespace Lib
variable {ν σ : Type}

/-- The loop, with fuel for the number of nodes; `body` gets the queue without its
head, and gives back the queue with what it has appended. -/
def queueLoop (body : ν → σ × List ν → Option (σ × List ν)) : Nat → σ × List ν → Option σ
  | _, (s, []) => some s
  | 0, (_, _ :: _) => none
  | n + 1, (s, r :: q) => (body r (s, q)).bind (queueLoop body n)

/-- A finite tree: each node but the root is the child of one node, and one level
below it. -/
structure IsTree (nodes : List ν) (kids : ν → List ν) (depth : ν → Nat) (root : ν) : Prop where
  root_mem : root ∈ nodes
  kids_mem : ∀ p ∈ nodes, ∀ x ∈ kids p, x ∈ nodes
  reached : ∀ x ∈ nodes, x = root ∨ ∃ p ∈ nodes, x ∈ kids p
  root_depth : depth root = 0
  kid_depth : ∀ p ∈ nodes, ∀ x ∈ kids p, depth x = depth p + 1
  kids_nodup : ∀ p ∈ nodes, (kids p).Nodup
  parent : ∀ p ∈ nodes, ∀ q ∈ nodes, ∀ x, x ∈ kids p → x ∈ kids q → p = q

/-- The nodes that are done, and those in the queue. -/
structure Sweep (nodes : List ν) (kids : ν → List ν) (depth : ν → Nat) (root : ν)
    (done queue : List ν) : Prop where
  nodup : (done ++ queue).Nodup
  sub : ∀ x ∈ done ++ queue, x ∈ nodes
  root_done : root ∈ done
  above : ∀ x ∈ done ++ queue, x = root ∨ ∃ p ∈ done, x ∈ kids p
  below : ∀ p ∈ done, ∀ x ∈ kids p, x ∈ done ++ queue
  sorted : queue.Pairwise fun x y => depth x ≤ depth y
  narrow : ∀ x ∈ queue, ∀ y ∈ queue, depth y ≤ depth x + 1

variable {nodes : List ν} {kids : ν → List ν} {depth : ν → Nat} {root r : ν} {done queue : List ν}

/-- Two children of one node. -/
theorem IsTree.siblings (ht : IsTree nodes kids depth root) {p x y : ν} (hp : p ∈ nodes) (hx : x ∈ kids p)
    (hy : y ∈ kids p) : depth x = depth y :=
  (ht.kid_depth p hp x hx).trans (ht.kid_depth p hp y hy).symm

theorem IsTree.kids_sorted (ht : IsTree nodes kids depth root) {p : ν} (hp : p ∈ nodes) :
    (kids p).Pairwise fun x y => depth x ≤ depth y :=
  List.pairwise_iff_forall_sublist.mpr fun hs => Nat.le_of_eq
    (ht.siblings hp (hs.subset List.mem_cons_self) (hs.subset (List.mem_cons_of_mem _ List.mem_cons_self)))

/-- The root is done, and its children are in the queue. -/
theorem Sweep.start (ht : IsTree nodes kids depth root) :
    Sweep nodes kids depth root [root] (kids root) where
  nodup := by
    apply List.nodup_cons.mpr
    refine ⟨fun hmem => ?_, ht.kids_nodup root ht.root_mem⟩
    have hd := ht.kid_depth root ht.root_mem root hmem
    omega
  sub x hx := by
    rcases List.mem_cons.mp hx with heq | hk
    · exact heq ▸ ht.root_mem
    · exact ht.kids_mem root ht.root_mem x hk
  root_done := List.mem_singleton.mpr rfl
  above x hx := by
    rcases List.mem_cons.mp hx with heq | hk
    · exact Or.inl heq
    · exact Or.inr ⟨root, List.mem_singleton.mpr rfl, hk⟩
  below p hp x hx := by
    rw [List.mem_singleton.mp hp] at hx
    exact List.mem_cons_of_mem root hx
  sorted := ht.kids_sorted ht.root_mem
  narrow x hx y hy := Nat.le_succ_of_le (Nat.le_of_eq (ht.siblings ht.root_mem hy hx))

section
variable (ht : IsTree nodes kids depth root) (h : Sweep nodes kids depth root done (r :: queue))
include ht h

/-- No child of the head has been seen. -/
theorem Sweep.kid_new {x : ν} (hx : x ∈ kids r) : x ∉ done ++ r :: queue := by
  intro hmem
  have hr : r ∈ nodes := h.sub r (List.mem_append_right done List.mem_cons_self)
  rcases h.above x hmem with heq | ⟨p, hp, hk⟩
  · have hd := ht.kid_depth r hr x hx
    rw [heq, ht.root_depth] at hd
    omega
  · have hpn : p ∈ nodes := h.sub p (List.mem_append_left _ hp)
    have heq := ht.parent p hpn r hr x hk hx
    exact (List.nodup_append.mp h.nodup).2.2 p hp r List.mem_cons_self heq

/-- The head is taken, and its children are appended. -/
theorem Sweep.step : Sweep nodes kids depth root (done ++ [r]) (queue ++ kids r) := by
  have hr : r ∈ nodes := h.sub r (List.mem_append_right done List.mem_cons_self)
  have hsplit : done ++ [r] ++ (queue ++ kids r) = (done ++ r :: queue) ++ kids r := by
    simp
  have hdepth : ∀ x ∈ queue, depth r ≤ depth x := (List.pairwise_cons.mp h.sorted).1
  have hnarrow : ∀ x ∈ queue, depth x ≤ depth r + 1 := fun x hx =>
    h.narrow r List.mem_cons_self x (List.mem_cons_of_mem r hx)
  refine ⟨?_, ?_, List.mem_append_left _ h.root_done, ?_, ?_, ?_, ?_⟩
  · rw [hsplit]
    apply List.nodup_append.mpr
    refine ⟨h.nodup, ht.kids_nodup r hr, fun x hx y hy heq => ?_⟩
    exact h.kid_new ht hy (heq ▸ hx)
  · intro x hx
    rw [hsplit] at hx
    rcases List.mem_append.mp hx with hx | hx
    · exact h.sub x hx
    · exact ht.kids_mem r hr x hx
  · intro x hx
    rw [hsplit] at hx
    rcases List.mem_append.mp hx with hx | hx
    · rcases h.above x hx with heq | ⟨p, hp, hk⟩
      · exact Or.inl heq
      · exact Or.inr ⟨p, List.mem_append_left _ hp, hk⟩
    · exact Or.inr ⟨r, List.mem_append_right done (List.mem_singleton.mpr rfl), hx⟩
  · intro p hp x hx
    rw [hsplit]
    rcases List.mem_append.mp hp with hp | hp
    · exact List.mem_append_left _ (h.below p hp x hx)
    · rw [List.mem_singleton.mp hp] at hx
      exact List.mem_append_right _ hx
  · -- what was in the queue is at most one level below the head, where its children are
    apply List.pairwise_append.mpr
    refine ⟨(List.pairwise_cons.mp h.sorted).2, ht.kids_sorted hr, fun x hx y hy => ?_⟩
    rw [ht.kid_depth r hr y hy]
    exact hnarrow x hx
  · intro x hx y hy
    have hlow : depth r ≤ depth x := by
      rcases List.mem_append.mp hx with hx | hx
      · exact hdepth x hx
      · exact Nat.le_trans (Nat.le_succ _) (Nat.le_of_eq (ht.kid_depth r hr x hx).symm)
    have hhigh : depth y ≤ depth r + 1 := by
      rcases List.mem_append.mp hy with hy | hy
      · exact hnarrow y hy
      · exact Nat.le_of_eq (ht.kid_depth r hr y hy)
    omega

/-- With a node at the head, every node above its level is done, and every node of
its level is done or in the queue. -/
theorem Sweep.seen_of_depth {x : ν} (hx : x ∈ nodes) (hd : depth x ≤ depth r) :
    x ∈ done ++ r :: queue ∧ (depth x < depth r → x ∈ done) := by
  induction hn : depth x using Nat.strongRecOn generalizing x with
  | _ n ih =>
    have hseen : x ∈ done ++ r :: queue := by
      rcases ht.reached x hx with heq | ⟨p, hp, hk⟩
      · exact List.mem_append_left _ (heq ▸ h.root_done)
      · have hkd := ht.kid_depth p hp x hk
        have hpd := (ih (depth p) (by omega) hp (by omega) rfl).2 (by omega)
        exact h.below p hpd x hk
    refine ⟨hseen, fun hlt => ?_⟩
    rcases List.mem_append.mp hseen with hdone | hq
    · exact hdone
    · rcases List.mem_cons.mp hq with heq | hq
      · rw [← hn, heq] at hlt
        exact absurd hlt (Nat.lt_irrefl _)
      · have hle := (List.pairwise_cons.mp h.sorted).1 x hq
        omega

end

/-- The queue is empty: every node is done. -/
theorem Sweep.complete (ht : IsTree nodes kids depth root) (h : Sweep nodes kids depth root done [])
    {x : ν} (hx : x ∈ nodes) : x ∈ done := by
  induction hn : depth x using Nat.strongRecOn generalizing x with
  | _ n ih =>
    rcases ht.reached x hx with heq | ⟨p, hp, hk⟩
    · exact heq ▸ h.root_done
    · have hkd := ht.kid_depth p hp x hk
      have hmem := h.below p (ih (depth p) (by omega) hp rfl) x hk
      rwa [List.append_nil] at hmem

/-- **The rule for the loop.** `inv done s` says what holds of the state when these
nodes are done. -/
theorem queueLoop_rule (ht : IsTree nodes kids depth root) (body : ν → σ × List ν → Option (σ × List ν))
    (inv : List ν → σ → Prop)
    (hstep : ∀ done r queue s, Sweep nodes kids depth root done (r :: queue) → inv done s →
      ∃ s', body r (s, queue) = some (s', queue ++ kids r) ∧ inv (done ++ [r]) s')
    {s : σ} (hs : inv [root] s) {n : Nat} (hn : nodes.length ≤ n) :
    ∃ done s', queueLoop body n (s, kids root) = some s' ∧ inv done s' ∧
      ∀ x ∈ nodes, x ∈ done := by
  have hrun : ∀ n done queue s, Sweep nodes kids depth root done queue → inv done s →
      nodes.length ≤ n + done.length →
      ∃ done s', queueLoop body n (s, queue) = some s' ∧ inv done s' ∧ ∀ x ∈ nodes, x ∈ done := by
    intro n
    induction n with
    | zero =>
      intro done queue s hsw hinv hlen
      cases queue with
      | nil => exact ⟨done, s, rfl, hinv, fun x hx => hsw.complete ht hx⟩
      | cons r queue =>
        -- more nodes than there are
        have hle := (hsw.nodup.subperm hsw.sub).length_le
        rw [List.length_append, List.length_cons] at hle
        omega
    | succ n ih =>
      intro done queue s hsw hinv hlen
      cases queue with
      | nil => exact ⟨done, s, rfl, hinv, fun x hx => hsw.complete ht hx⟩
      | cons r queue =>
        obtain ⟨s', hbody, hinv'⟩ := hstep done r queue s hsw hinv
        have hlen' : nodes.length ≤ n + (done ++ [r]).length := by
          rw [List.length_append, List.length_singleton]
          omega
        obtain ⟨done', s'', hloop, hend⟩ := ih _ _ s' (hsw.step ht) hinv' hlen'
        refine ⟨done', s'', ?_, hend⟩
        rw [queueLoop, hbody]
        exact hloop
  exact hrun n [root] (kids root) s (Sweep.start ht) hs (Nat.le_add_right_of_le hn)

end Lib
