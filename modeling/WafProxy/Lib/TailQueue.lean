import Mathlib.Data.List.Nodup
import Mathlib.Logic.Function.Basic

/-
  Queues of linked nodes with a pointer to the last node

  A node has a `next`, a queue its first node and its last. Several queues share
  the memory of the nodes: a node is put behind the last one of a queue, the
  first one is taken out, and all of one queue go behind those of another.

  1. `Run` — the nodes that the links lead through.
  2. `IsQueue` — a queue and the list of its nodes; what an empty one has for its
     first and last node is left open (`idle`). `put_nil`, `put`, `take`, `join` are what
     the writes of each operation do to the list, and `frame` what leaves it alone.
  3. `Op`, `step`, `Apart` — the lists of all the queues and the operations on them;
     no node is ever in two places.
-/

namespace Lib
namespace TailQueue
open Function

variable {K : Type} {next : K → Option K} {h e : Option K} {l : List K}

/-! ## Links -/

/-- The links lead from `h` through the nodes of a list to `e`. -/
def Run (next : K → Option K) : Option K → List K → Option K → Prop
  | h, [], e => h = e
  | h, k :: l, e => h = some k ∧ Run next (next k) l e

theorem run_append {r : List K} :
    ∀ {h : Option K}, Run next h (l ++ r) e ↔ ∃ m, Run next h l m ∧ Run next m r e := by
  induction l with
  | nil =>
    intro h
    constructor
    · exact fun hr => ⟨h, rfl, hr⟩
    · intro hr
      obtain ⟨m, hm, hr⟩ := hr
      rw [show h = m from hm]
      exact hr
  | cons k l ih =>
    intro h
    rw [List.cons_append, Run, ih]
    constructor
    · intro hr
      obtain ⟨hk, m, hl, hr⟩ := hr
      exact ⟨m, ⟨hk, hl⟩, hr⟩
    · intro hr
      obtain ⟨m, ⟨hk, hl⟩, hr⟩ := hr
      exact ⟨hk, m, hl, hr⟩

theorem run_congr {next' : K → Option K} (hkeep : ∀ k ∈ l, next' k = next k) :
    ∀ {h : Option K}, Run next h l e → Run next' h l e := by
  induction l with
  | nil => exact fun hr => hr
  | cons k l ih =>
    intro h hr
    refine ⟨hr.1, ?_⟩
    rw [hkeep k List.mem_cons_self]
    exact ih (fun q hq => hkeep q (List.mem_cons_of_mem _ hq)) hr.2

/-- Links that lead through some node begin there. -/
theorem run_head (hl : l ≠ []) (hr : Run next h l e) : h = l.head? := by
  cases l with
  | nil => exact absurd rfl hl
  | cons k l => exact hr.1

/-! ## A queue -/

/-- The first and the last node of a queue of these nodes. -/
structure IsQueue (idle : Option K → Option K → Prop) (next : K → Option K) (head tail : Option K) (l : List K) :
    Prop where
  empty : l = [] → idle head tail
  run : l ≠ [] → Run next head l none
  last : l ≠ [] → tail = l.getLast?

namespace IsQueue
variable {idle : Option K → Option K → Prop} {head tail : Option K} {k : K}

theorem frame {next' : K → Option K} (hq : IsQueue idle next head tail l) (hkeep : ∀ k ∈ l, next' k = next k) :
    IsQueue idle next' head tail l :=
  ⟨hq.empty, fun hl => run_congr hkeep (hq.run hl), hq.last⟩

theorem tail_eq (hq : IsQueue idle next head tail l) (hl : l ≠ []) :
    ∃ front t, l = front ++ [t] ∧ tail = some t := by
  refine ⟨l.dropLast, l.getLast hl, (List.dropLast_append_getLast hl).symm, ?_⟩
  rw [hq.last hl, List.getLast?_eq_some_getLast hl]

theorem head_eq (hq : IsQueue idle next head tail (k :: l)) : head = some k :=
  run_head (List.cons_ne_nil k l) (hq.run (List.cons_ne_nil k l))

end IsQueue

/-! ## Writes -/

section
variable [DecidableEq K]

theorem update_keep {t : K} (ht : t ∉ l) (v : Option K) : ∀ k ∈ l, update next t v k = next k := by
  intro k hk
  apply update_of_ne
  intro heq
  exact ht (heq ▸ hk)

/-- The link of the last node is written. -/
theorem run_link {t : K} (ht : t ∉ l) (hr : Run next h (l ++ [t]) e) (v : Option K) :
    Run (update next t v) h (l ++ [t]) v := by
  -- the links in front of the last node are not written, it is in the list once
  obtain ⟨m, hl, hm, -⟩ := run_append.mp hr
  refine run_append.mpr ⟨m, run_congr (update_keep ht v) hl, hm, ?_⟩
  exact update_self t v next

namespace IsQueue
variable {idle : Option K → Option K → Prop} {head tail : Option K} {k : K}

/-- A node alone. -/
theorem put_nil : IsQueue idle (update next k none) (some k) (some k) [k] :=
  ⟨fun hl => (by cases hl), fun _ => ⟨rfl, (update_self k none next : update next k none k = none)⟩, fun _ => rfl⟩

/-- A node behind the last one. -/
theorem put {t : K} (hq : IsQueue idle next head (some t) l) (hl : l ≠ []) (hnd : l.Nodup) (hk : k ∉ l) :
    IsQueue idle (update (update next k none) t (some k)) head (some k) (l ++ [k]) := by
  obtain ⟨front, t', rfl, ht⟩ := hq.tail_eq hl
  cases ht
  -- the new node is not the last one, and the last one is not in front of itself
  have hne : k ≠ t := fun heq => hk (heq ▸ List.mem_append_right _ List.mem_cons_self)
  have ht : t ∉ front := fun hmem => (List.nodup_append.mp hnd).2.2 t hmem t List.mem_cons_self rfl
  refine ⟨fun hnil => absurd hnil (List.append_ne_nil_of_right_ne_nil _ (List.cons_ne_nil k [])), fun _ => ?_,
    fun _ => ?_⟩
  · refine run_append.mpr ⟨some k, run_link ht (run_congr (update_keep hk none) (hq.run hl)) (some k), rfl, ?_⟩
    rw [update_of_ne hne, update_self]
    rfl
  · rw [List.getLast?_append]
    rfl

/-- The first node is taken out. -/
theorem take (hq : IsQueue idle next head tail (k :: l)) (hidle : idle none none) (hk : k ∉ l) :
    IsQueue idle (update next k none) (next k) (if l = [] then none else tail) l := by
  have hrun := (hq.run (List.cons_ne_nil k l)).2
  refine ⟨fun hl => ?_, fun _ => run_congr (update_keep hk none) hrun, fun hl => ?_⟩
  · subst hl
    have hend : next k = none := hrun
    rw [if_pos rfl, hend]
    exact hidle
  · rw [if_neg hl, hq.last (List.cons_ne_nil k l), List.getLast?_cons, List.getLast?_eq_some_getLast hl]
    rfl

/-- The nodes of another queue go behind the last one. -/
theorem join {t : K} {r : List K} {head' tail' : Option K} (hq : IsQueue idle next head (some t) l)
    (hq' : IsQueue idle next head' tail' r) (hl : l ≠ []) (hr : r ≠ []) (hnd : l.Nodup) (happart : ∀ k ∈ l, k ∉ r) :
    IsQueue idle (update next t head') head tail' (l ++ r) := by
  obtain ⟨front, t', rfl, ht⟩ := hq.tail_eq hl
  cases ht
  have ht : t ∉ front := fun hmem => (List.nodup_append.mp hnd).2.2 t hmem t List.mem_cons_self rfl
  have ht' : t ∉ r := happart t (List.mem_append_right _ List.mem_cons_self)
  refine ⟨fun hnil => absurd hnil (List.append_ne_nil_of_right_ne_nil _ hr), fun _ => ?_, fun _ => ?_⟩
  · exact run_append.mpr ⟨head', run_link ht (hq.run hl) head', run_congr (update_keep ht' head') (hq'.run hr)⟩
  · rw [List.getLast?_append, hq'.last hr, List.getLast?_eq_some_getLast hr]
    rfl

end IsQueue

end

/-! ## All the queues -/

variable {Q : Type} [DecidableEq Q]

inductive Op (Q K : Type) where
  | put (q : Q) (k : K)
  | take (q : Q)
  | join (d s : Q)

/-- The lists behind an operation. -/
def step (L : Q → List K) : Op Q K → Q → List K
  | .put q k => update L q (L q ++ [k])
  | .take q => update L q (L q).tail
  | .join d s => update (update L d (L d ++ L s)) s []

/-- A node that is put in a queue is in none, and a queue is not joined with itself. -/
def Allowed (L : Q → List K) : Op Q K → Prop
  | .put _ k => ∀ q, k ∉ L q
  | .take _ => True
  | .join d s => d ≠ s

/-- No node is in two places. -/
structure Apart (L : Q → List K) : Prop where
  nodup : ∀ q, (L q).Nodup
  one : ∀ p q k, k ∈ L p → k ∈ L q → p = q

section
variable {L L' : Q → List K} {p q d s : Q} {k x : K}

theorem step_put : step L (.put q k) = update L q (L q ++ [k]) := rfl

theorem step_take : step L (.take q : Op Q K) = update L q (L q).tail := rfl

theorem step_join : step L (.join d s : Op Q K) = update (update L d (L d ++ L s)) s [] := rfl

theorem mem_put : x ∈ step L (.put q k) p ↔ x ∈ L p ∨ p = q ∧ x = k := by
  rw [step_put]
  by_cases hp : p = q
  · subst hp
    rw [update_self, List.mem_append, List.mem_singleton]
    exact or_congr_right ⟨fun hx => ⟨rfl, hx⟩, And.right⟩
  · rw [update_of_ne hp]
    exact ⟨Or.inl, fun hx => hx.resolve_right fun h => hp h.1⟩

theorem mem_join (hne : d ≠ s) : x ∈ step L (.join d s : Op Q K) p ↔ p ≠ s ∧ (x ∈ L p ∨ p = d ∧ x ∈ L s) := by
  rw [step_join]
  by_cases hs : p = s
  · subst hs
    rw [update_self]
    exact iff_of_false List.not_mem_nil (fun h => h.1 rfl)
  · rw [update_of_ne hs]
    by_cases hd : p = d
    · subst hd
      rw [update_self, List.mem_append]
      exact ⟨fun hx => ⟨hs, hx.imp_right fun h => ⟨rfl, h⟩⟩, fun h => h.2.imp_right And.right⟩
    · rw [update_of_ne hd]
      exact ⟨fun hx => ⟨hs, Or.inl hx⟩, fun h => h.2.resolve_right fun h' => hd h'.1⟩

omit [DecidableEq Q] in
theorem Apart.sublist (h : Apart L) (hsub : ∀ p, (L' p).Sublist (L p)) : Apart L' :=
  ⟨fun p => (h.nodup p).sublist (hsub p), fun p q k hp hq => h.one p q k ((hsub p).subset hp) ((hsub q).subset hq)⟩

/-- **One operation** leaves every node in one place. -/
theorem step_apart {op : Op Q K} (h : Apart L) (hop : Allowed L op) : Apart (step L op) := by
  cases op with
  | put q k =>
    constructor
    · intro p
      rw [step_put]
      by_cases hp : p = q
      · subst hp
        rw [update_self]
        exact List.nodup_append.mpr ⟨h.nodup p, List.nodup_singleton k,
          fun a ha b hb => by rw [List.mem_singleton.mp hb]; exact fun heq => hop p (heq ▸ ha)⟩
      · rw [update_of_ne hp]
        exact h.nodup p
    · intro p p' x hx hx'
      -- both were there, or one of them is the new node, which was in no queue
      rcases mem_put.mp hx with hx | hx <;> rcases mem_put.mp hx' with hx' | hx'
      · exact h.one p p' x hx hx'
      · exact absurd (hx'.2 ▸ hx) (hop p)
      · exact absurd (hx.2 ▸ hx') (hop p')
      · exact hx.1.trans hx'.1.symm
  | take q =>
    apply h.sublist
    intro p
    rw [step_take]
    by_cases hp : p = q
    · subst hp
      rw [update_self]
      exact List.tail_sublist _
    · rw [update_of_ne hp]
  | join d s =>
    constructor
    · intro p
      rw [step_join]
      by_cases hs : p = s
      · subst hs
        rw [update_self]
        exact List.nodup_nil
      · rw [update_of_ne hs]
        by_cases hd : p = d
        · subst hd
          rw [update_self]
          exact List.nodup_append.mpr ⟨h.nodup p, h.nodup s,
            fun a ha b hb heq => hs (h.one p s a ha (heq ▸ hb))⟩
        · rw [update_of_ne hd]
          exact h.nodup p
    · intro p p' x hx hx'
      obtain ⟨hps, hx⟩ := (mem_join hop).mp hx
      obtain ⟨hps', hx'⟩ := (mem_join hop).mp hx'
      -- a node of the emptied queue is now in the other one only
      rcases hx with hx | hx <;> rcases hx' with hx' | hx'
      · exact h.one p p' x hx hx'
      · exact absurd (h.one p s x hx hx'.2) hps
      · exact absurd (h.one p' s x hx' hx.2) hps'
      · exact hx.1.trans hx'.1.symm

end

end TailQueue
end Lib
