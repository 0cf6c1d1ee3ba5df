import Mathlib.Data.List.Nodup

/-
  Intrusive lists with back pointers

  A node has a `next` and a `pprev`; `pprev` points at the link that refers to
  the node, which is the list's head or the `next` of the node in front. Nodes
  are linked in at the head and out anywhere, without a search.

  1. `Links` — the pointers, a function for each field of the nodes.
  2. `Chain` — the nodes from a link on, each with its back pointer.
  3. `isList_push`, `isList_unlink`, `isList_pop` — what the operations do to
     the list of nodes; `chain_congr` — what does not touch a list keeps it.
-/

namespace Lib

/-- Where a reference to a node stands. -/
inductive Link (K : Type) where
  | head
  | next (k : K)
  deriving DecidableEq

/-- The head of a list and the fields its nodes are linked by. -/
structure Links (K : Type) where
  head : Option K
  next : K → Option K
  pprev : K → Option (Link K)

namespace Links
variable {K : Type} [DecidableEq K]

/-- No node is linked. -/
def empty : Links K := { head := none, next := fun _ => none, pprev := fun _ => none }

/-- `*link`. -/
def deref (L : Links K) : Link K → Option K
  | .head => L.head
  | .next k => L.next k

def setNext (L : Links K) (k : K) (v : Option K) : Links K :=
  { L with next := fun q => if q = k then v else L.next q }

def setPprev (L : Links K) (k : K) (v : Option (Link K)) : Links K :=
  { L with pprev := fun q => if q = k then v else L.pprev q }

/-- `*link = v`. -/
def setAt (L : Links K) (l : Link K) (v : Option K) : Links K :=
  match l with
  | .head => { L with head := v }
  | .next k => L.setNext k v

/-- The back pointer of a node that may be missing. -/
def setBack (L : Links K) (k : Option K) (v : Option (Link K)) : Links K :=
  match k with
  | some k => L.setPprev k v
  | none => L

/-- Links `k` in at the head. -/
def push (L : Links K) (k : K) : Links K :=
  { (((L.setBack L.head (some (.next k))).setPprev k (some .head)).setNext k L.head) with
    head := some k }

/-- Links `k` out; `none` when its back pointer is null. -/
def unlink (L : Links K) (k : K) : Option (Links K) :=
  match L.pprev k with
  | none => none
  | some l => some ((L.setBack (L.next k) (some l)).setAt l (L.next k))

/-- Links the first node `k` out. -/
def pop (L : Links K) (k : K) : Links K :=
  { L.setBack (L.next k) (some .head) with head := L.next k }

/-- The pointers of a node that is on no list. -/
def clear (L : Links K) (k : K) : Links K := (L.setNext k none).setPprev k none

/-! ## The fields after a write -/

@[simp] theorem setNext_head (L : Links K) (k : K) (v : Option K) : (L.setNext k v).head = L.head :=
  rfl

@[simp] theorem setNext_pprev (L : Links K) (k : K) (v : Option K) :
    (L.setNext k v).pprev = L.pprev := rfl

@[simp] theorem setPprev_head (L : Links K) (k : K) (v : Option (Link K)) :
    (L.setPprev k v).head = L.head := rfl

@[simp] theorem setPprev_next (L : Links K) (k : K) (v : Option (Link K)) :
    (L.setPprev k v).next = L.next := rfl

@[simp] theorem setBack_head (L : Links K) (k : Option K) (v : Option (Link K)) :
    (L.setBack k v).head = L.head := by
  cases k <;> rfl

@[simp] theorem setBack_next (L : Links K) (k : Option K) (v : Option (Link K)) :
    (L.setBack k v).next = L.next := by
  cases k <;> rfl

theorem setBack_pprev (L : Links K) (k : Option K) (v : Option (Link K)) (q : K) :
    (L.setBack k v).pprev q = if k = some q then v else L.pprev q := by
  cases k with
  | none => rfl
  | some k =>
    show (if q = k then v else L.pprev q) = _
    simp only [Option.some.injEq, eq_comm]

theorem setAt_deref (L : Links K) (l m : Link K) (v : Option K) :
    (L.setAt l v).deref m = if m = l then v else L.deref m := by
  cases l with
  | head =>
    cases m <;> simp [setAt, deref]
  | next k =>
    cases m <;> simp [setAt, deref, setNext]

@[simp] theorem setAt_pprev (L : Links K) (l : Link K) (v : Option K) :
    (L.setAt l v).pprev = L.pprev := by
  cases l <;> rfl

theorem setBack_deref (L : Links K) (k : Option K) (v : Option (Link K)) (l : Link K) :
    (L.setBack k v).deref l = L.deref l := by
  cases l <;> simp [deref]

/-! ## Chains -/

omit [DecidableEq K]

/-- The nodes from the link `l` on: each is what the link in front of it refers
to, and its back pointer points at that link. -/
def Chain (L : Links K) : Link K → List K → Prop
  | l, [] => L.deref l = none
  | l, k :: ks => L.deref l = some k ∧ L.pprev k = some l ∧ L.Chain (.next k) ks

/-- The whole list. -/
structure IsList (L : Links K) (ks : List K) : Prop where
  chain : L.Chain .head ks
  nodup : ks.Nodup

/-- The link behind the nodes `pre`, which start at `l`. -/
def lastLink : Link K → List K → Link K
  | l, [] => l
  | _, k :: pre => lastLink (.next k) pre

theorem lastLink_cons_mem {l : Link K} {k : K} {pre : List K} :
    ∃ p ∈ k :: pre, lastLink l (k :: pre) = .next p := by
  induction pre generalizing l k with
  | nil => exact ⟨k, List.mem_singleton_self k, rfl⟩
  | cons q pre ih =>
    obtain ⟨p, hp, heq⟩ := @ih (.next k) q
    exact ⟨p, List.mem_cons_of_mem _ hp, heq⟩

theorem chain_head {L : Links K} {l : Link K} {ks : List K} (h : L.Chain l ks) :
    L.deref l = ks.head? := by
  cases ks with
  | nil => exact h
  | cons k ks => exact h.1

/-- The pointers determine the list. -/
theorem chain_unique {L : Links K} {ks : List K} : ∀ {l : Link K} {ks' : List K},
    L.Chain l ks → L.Chain l ks' → ks = ks' := by
  induction ks with
  | nil =>
    intro l ks' h h'
    cases ks' with
    | nil => rfl
    | cons k ks' =>
      have hat := h'.1
      rw [h] at hat
      cases hat
  | cons k ks ih =>
    intro l ks' h h'
    cases ks' with
    | nil =>
      have hat := h.1
      rw [h'] at hat
      cases hat
    | cons k' ks' =>
      have hk : k = k' := Option.some.inj (h.1.symm.trans h'.1)
      subst hk
      rw [ih h.2.2 h'.2.2]

/-- What touches neither the first link nor the nodes keeps a chain. -/
theorem chain_congr {L L' : Links K} {ks : List K} : ∀ {l : Link K}, L'.deref l = L.deref l →
    (∀ k ∈ ks, L'.next k = L.next k ∧ L'.pprev k = L.pprev k) → L.Chain l ks → L'.Chain l ks := by
  induction ks with
  | nil =>
    intro l hat _ h
    exact hat.trans h
  | cons k ks ih =>
    intro l hat hmem h
    obtain ⟨hk, hback, hrest⟩ := h
    obtain ⟨hnext, hpprev⟩ := hmem k List.mem_cons_self
    refine ⟨hat.trans hk, hpprev.trans hback, ?_⟩
    exact @ih (.next k) hnext (fun q hq => hmem q (List.mem_cons_of_mem _ hq)) hrest

/-- A node inside a chain: where its back pointer points, and what is behind it. -/
theorem chain_mid {L : Links K} {k : K} {post pre : List K} : ∀ {l : Link K},
    L.Chain l (pre ++ k :: post) → L.pprev k = some (lastLink l pre) ∧ L.next k = post.head? := by
  induction pre with
  | nil =>
    intro l h
    exact ⟨h.2.1, chain_head h.2.2⟩
  | cons p pre ih =>
    intro l h
    exact ih h.2.2

variable [DecidableEq K]

theorem chain_unlink {L : Links K} {k : K} {post pre : List K} {l₀ : Link K} :
    ∀ {l : Link K}, lastLink l pre = l₀ → L.Chain l (pre ++ k :: post) →
      (pre ++ k :: post).Nodup → (∀ p ∈ pre ++ k :: post, l ≠ .next p) →
      ((L.setBack post.head? (some l₀)).setAt l₀ post.head?).Chain l (pre ++ post) := by
  induction pre with
  | nil =>
    intro l hl h hnd hout
    obtain rfl : l = l₀ := hl
    obtain ⟨-, -, hpost⟩ := h
    show Chain _ l post
    cases post with
    | nil =>
      show ((L.setBack none (some l)).setAt l none).deref l = none
      rw [setAt_deref, if_pos rfl]
    | cons n post =>
      -- `n` is now what the link refers to, and points back at it
      have hnl : n ∉ post := (List.nodup_cons.mp (List.nodup_cons.mp hnd).2).1
      refine ⟨?_, ?_, ?_⟩
      · show _ = some n
        rw [setAt_deref, if_pos rfl]
        rfl
      · show _ = some l
        rw [setAt_pprev, setBack_pprev]
        exact if_pos rfl
      · refine chain_congr ?_ ?_ hpost.2.2
        · rw [setAt_deref, if_neg, setBack_deref]
          intro heq
          exact hout n (by simp) heq.symm
        · intro q hq
          constructor
          · have hne : Link.next q ≠ l := fun heq => hout q (by simp [hq]) heq.symm
            have hat := setAt_deref (L.setBack (n :: post).head? (some l)) l (.next q) (n :: post).head?
            rw [if_neg hne, setBack_deref] at hat
            exact hat
          · have hne : n ≠ q := fun heq => hnl (heq ▸ hq)
            rw [setAt_pprev, setBack_pprev]
            exact if_neg fun heq => hne (Option.some.inj heq)
  | cons p pre ih =>
    intro l hl h hnd hout
    obtain ⟨hat, hback, hrest⟩ := h
    rw [List.cons_append] at hnd
    obtain ⟨hp, hnd⟩ := List.nodup_cons.mp hnd
    have hl₀ : l ≠ l₀ := by
      obtain ⟨q, hq, heq⟩ := @lastLink_cons_mem K l p pre
      rw [← hl, heq]
      exact hout q (List.mem_append_left _ hq)
    refine ⟨?_, ?_, ?_⟩
    · rw [setAt_deref, if_neg hl₀, setBack_deref]
      exact hat
    · have hne : post.head? ≠ some p := by
        intro heq
        have hmem := List.mem_of_mem_head? heq
        exact hp (List.mem_append_right _ (List.mem_cons_of_mem _ hmem))
      rw [setAt_pprev, setBack_pprev, if_neg hne]
      exact hback
    · apply ih hl hrest hnd
      intro q hq heq
      cases heq
      exact hp hq

/-- **Linking out.** -/
theorem isList_unlink [BEq K] [LawfulBEq K] {L : Links K} {ks : List K} {k : K} (h : L.IsList ks) (hk : k ∈ ks) :
    ∃ L', L.unlink k = some L' ∧ L'.IsList (ks.erase k) := by
  obtain ⟨pre, post, rfl⟩ := List.append_of_mem hk
  obtain ⟨hback, hnext⟩ := chain_mid h.chain
  refine ⟨_, by rw [unlink, hback], ?_⟩
  have hnd := h.nodup
  have hpre : k ∉ pre := by
    intro hmem
    exact (List.nodup_append.mp hnd).2.2 k hmem k List.mem_cons_self rfl
  rw [List.erase_append_right _ hpre, List.erase_cons_head, hnext]
  constructor
  · exact chain_unlink rfl h.chain hnd (fun p _ => by simp)
  · exact hnd.sublist ((List.sublist_cons_self k post).append_left pre)

/-- **Linking in.** -/
theorem isList_push {L : Links K} {ks : List K} {k : K} (h : L.IsList ks) (hk : k ∉ ks) :
    (L.push k).IsList (k :: ks) := by
  have hhead : L.head = ks.head? := chain_head h.chain
  refine ⟨⟨rfl, ?_, ?_⟩, List.nodup_cons.mpr ⟨hk, h.nodup⟩⟩
  · show (if k = k then _ else _) = _
    rw [if_pos rfl]
  · have hnext : (L.push k).next k = L.head := by
      show (if k = k then _ else _) = _
      rw [if_pos rfl]
    have hkeep : ∀ q, q ≠ k → (L.push k).next q = L.next q := by
      intro q hq
      show (if q = k then _ else _) = _
      rw [if_neg hq, setPprev_next, setBack_next]
    have hback : ∀ q, q ≠ k →
        (L.push k).pprev q = if L.head = some q then some (.next k) else L.pprev q := by
      intro q hq
      show (if q = k then _ else _) = _
      rw [if_neg hq, setBack_pprev]
    have hchain := h.chain
    cases ks with
    | nil => exact hnext.trans hhead
    | cons n ks =>
      obtain ⟨-, -, hrest⟩ := hchain
      have hn : n ∉ ks := (List.nodup_cons.mp h.nodup).1
      have hnk : n ≠ k := fun heq => hk (by simp [heq])
      refine ⟨hnext.trans hhead, ?_, ?_⟩
      · rw [hback n hnk]
        exact if_pos hhead
      · refine chain_congr (hkeep n hnk) ?_ hrest
        intro q hq
        have hqk : q ≠ k := fun heq => hk (by simp [← heq, hq])
        have hqn : n ≠ q := fun heq => hn (heq ▸ hq)
        refine ⟨hkeep q hqk, ?_⟩
        rw [hback q hqk, hhead]
        exact if_neg fun heq => hqn (Option.some.inj heq)

/-- Taking the first node is linking it out. -/
theorem isList_pop {L : Links K} {ks : List K} {k : K} (h : L.IsList (k :: ks)) :
    (L.pop k).IsList ks := by
  obtain ⟨L', hL', hlist⟩ := isList_unlink h List.mem_cons_self
  have hback : L.pprev k = some .head := h.chain.2.1
  rw [unlink, hback] at hL'
  cases hL'
  rw [List.erase_cons_head] at hlist
  exact hlist

/-- Clearing what is on no list. -/
theorem isList_clear {L : Links K} {ks : List K} {k : K} (h : L.IsList ks) (hk : k ∉ ks) :
    (L.clear k).IsList ks := by
  refine ⟨@chain_congr K L (L.clear k) ks .head rfl ?_ h.chain, h.nodup⟩
  intro q hq
  have hne : q ≠ k := fun heq => hk (heq ▸ hq)
  constructor
  · show (if q = k then none else L.next q) = _
    rw [if_neg hne]
  · show (if q = k then none else L.pprev q) = _
    rw [if_neg hne]

omit [DecidableEq K] in
theorem isList_empty : (empty : Links K).IsList [] := ⟨rfl, List.nodup_nil⟩

end Links
end Lib
