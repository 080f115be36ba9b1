import Mathlib.Data.List.Chain

/-! Linked lists that share their tails, kept in an arena. Nodes are only ever added; a node points
to one added before it or to nothing, and a link can be cut, which ends every list that runs
through the node there. The arena is a list with the newest node in front, so a node's id is the
number of nodes below it and a walk down the links is a recursion on the arena. -/

namespace LeafageEvm
open Nat List

structure ArenaNode (α : Type) where
  value : α
  next : Option Nat

abbrev Arena (α : Type) := List (ArenaNode α)

namespace Arena

variable {id : Nat} {α : Type} {arena : Arena α} {node : ArenaNode α}

def node? : Arena α → Nat → Option (ArenaNode α)
  | [], _ => none
  | node :: rest, id => if id = rest.length then some node else node? rest id

/-- Add a node; its id is the number of nodes before. -/
def push (arena : Arena α) (node : ArenaNode α) : Arena α := node :: arena

/-- End the list at a node. -/
def cut : Arena α → Nat → Arena α
  | [], _ => []
  | node :: rest, id =>
    if id = rest.length then { node with next := none } :: rest else node :: cut rest id

/-- The ids of the list that starts at a link. -/
def chain : Arena α → Option Nat → List Nat
  | _, none => []
  | [], some _ => []
  | node :: rest, some id =>
    if id = rest.length then id :: chain rest node.next else chain rest (some id)

/-- Where a node's link leads. -/
def next? (arena : Arena α) (id : Nat) : Option Nat := (arena.node? id).bind (·.next)

/-- Every link leads to a node added before. -/
def WellLinked (arena : Arena α) : Prop :=
  ∀ id node, arena.node? id = some node → ∀ p, node.next = some p → p < id

/-- The part of a list up to and including an id. -/
def through (id : Nat) : List Nat → List Nat
  | [] => []
  | x :: xs => if x = id then [x] else x :: through id xs

section
variable (arena : Arena α)

@[simp] theorem chain_none : arena.chain none = [] := by
  cases arena <;> rfl

@[simp] theorem length_cut (id : Nat) : (arena.cut id).length = arena.length := by
  induction arena with
  | nil => rfl
  | cons _ _ ih =>
    unfold cut
    split <;> simp [ih]

section
variable (node : ArenaNode α)

@[simp] theorem length_push : (arena.push node).length = arena.length + 1 := rfl

@[simp] theorem node?_push_self : (arena.push node).node? arena.length = some node := by
  simp [push, node?]

theorem node?_push_of_lt (h : id < arena.length) : (arena.push node).node? id = arena.node? id := by
  simp [push, node?, h.ne]
end

end

theorem lt_of_node? (h : arena.node? id = some node) : id < arena.length := by
  induction arena with
  | nil => cases h
  | cons _ _ ih =>
    unfold node? at h
    split at h
    · simp_all
    · exact (ih h).trans (lt_succ_self _)

theorem exists_node? (h : id < arena.length) : ∃ node, arena.node? id = some node := by
  induction arena with
  | nil => cases h
  | cons top rest ih =>
    by_cases hid : id = rest.length
    · exact ⟨top, by simp [node?, hid]⟩
    have hlt : id < rest.length := by
      rw [length_cons] at h
      omega
    obtain ⟨node, hnode⟩ := ih hlt
    exact ⟨node, (node?_push_of_lt rest top hlt).trans hnode⟩

theorem node?_cut (arena : Arena α) (id other : Nat) : (arena.cut id).node? other =
      (arena.node? other).map fun node => if other = id then { node with next := none } else node := by
  induction arena with
  | nil => rfl
  | cons _ rest ih =>
    by_cases hid : id = rest.length
    · by_cases hother : other = rest.length
      · simp [cut, node?, hid, hother]
      · simp [cut, node?, hid, hother]
    by_cases hother : other = rest.length
    · have hne : rest.length ≠ id := (hid ·.symm)
      simp [cut, node?, hid, hother, hne]
    · simp [cut, node?, hid, hother, ih]

theorem lt_of_mem_chain {start : Option Nat} (h : id ∈ arena.chain start) : id < arena.length := by
  induction arena generalizing start with
  | nil => cases start <;> cases h
  | cons _ _ ih =>
    cases start with
    | none => cases h
    | some =>
      unfold chain at h
      split at h
      · rcases mem_cons.mp h with rfl | hmem
        · simp_all
        · exact (ih hmem).trans (lt_succ_self _)
      · exact (ih h).trans (lt_succ_self _)

theorem through_of_not_mem {l : List Nat} (h : id ∉ l) : through id l = l := by
  induction l with
  | nil => rfl
  | cons x xs ih =>
    have hne : x ≠ id := fun heq => h (heq ▸ mem_cons_self)
    rw [through, if_neg hne, ih fun hmem => h (.tail _ hmem)]

theorem through_append_cons {upper : List Nat} (lower : List Nat) (h : id ∉ upper) :
    through id (upper ++ id :: lower) = upper ++ [id] := by
  induction upper with
  | nil => simp [through]
  | cons x xs ih =>
    have hne : x ≠ id := fun heq => h (heq ▸ mem_cons_self)
    rw [cons_append, through, if_neg hne, ih fun hmem => h (.tail _ hmem)]
    rfl

theorem through_prefix (id : Nat) (l : List Nat) : through id l <+: l := by
  induction l with
  | nil => exact prefix_rfl
  | cons x xs ih =>
    unfold through
    split
    · exact ⟨xs, rfl⟩
    · exact prefix_cons_inj x |>.mpr ih

/-- A cut ends at the node every list that runs through it and leaves the others as they are. -/
theorem chain_cut (arena : Arena α) (id : Nat) (start : Option Nat) :
    (arena.cut id).chain start = through id (arena.chain start) := by
  induction arena generalizing start with
  | nil => cases start <;> rfl
  | cons _ rest ih =>
    cases start with
    | none => simp [through]
    | some first =>
      by_cases hid : id = rest.length
      · by_cases hfirst : first = rest.length
        · simp [cut, chain, hid, hfirst, through]
        · have hmem : id ∉ chain rest (some first) := fun h =>
            (lt_of_mem_chain h).ne hid
          simp [cut, chain, hid, hfirst, through_of_not_mem (hid ▸ hmem)]
      by_cases hfirst : first = rest.length
      · have hne : rest.length ≠ id := (hid ·.symm)
        simp [cut, chain, hid, hfirst, through, hne, ih]
      · simp [cut, chain, hid, hfirst, ih]

section
variable (node : ArenaNode α)

theorem WellLinked.push (hlinked : arena.WellLinked)
    (hnext : ∀ p, node.next = some p → p < arena.length) : (arena.push node).WellLinked := by
  intro id other hother p hp
  by_cases hid : id = arena.length
  · subst hid
    rw [node?_push_self] at hother
    cases hother
    exact hnext p hp
  have hlt : id < arena.length := by
    have := lt_of_node? hother
    rw [length_push] at this
    omega
  rw [node?_push_of_lt arena node hlt] at hother
  exact hlinked id other hother p hp

section
variable (arena : Arena α)

theorem chain_push_of_lt (h : id < arena.length) : (arena.push node).chain (some id) = arena.chain (some id) := by
  simp [push, chain, h.ne]

theorem chain_push_self : (arena.push node).chain (some arena.length) = arena.length :: arena.chain node.next := by
  simp [push, chain]

@[simp] theorem next?_push_self : (arena.push node).next? arena.length = node.next := by
  simp [next?]

theorem next?_push_of_lt (h : id < arena.length) : (arena.push node).next? id = arena.next? id := by
  simp [next?, node?_push_of_lt arena node h]
end

end

theorem chain_eq_cons (hlinked : arena.WellLinked) (hnode : arena.node? id = some node) :
    arena.chain (some id) = id :: arena.chain node.next := by
  induction arena with
  | nil => cases hnode
  | cons top rest ih =>
    have hpush : ∀ p, node.next = some p → p < rest.length := fun p hp => by
      have hp := hlinked id node hnode p hp
      have hid := lt_of_node? hnode
      rw [length_cons] at hid
      omega
    have htail : chain (top :: rest) node.next = chain rest node.next := by
      cases hnext : node.next with
      | none => simp
      | some p => exact chain_push_of_lt top rest (hpush p hnext)
    rw [htail]
    by_cases hid : id = rest.length
    · subst hid
      have htop := (node?_push_self rest top).symm.trans hnode
      cases htop
      exact chain_push_self node rest
    have hlt : id < rest.length := by
      have hid' := lt_of_node? hnode
      rw [length_cons] at hid'
      omega
    refine (chain_push_of_lt top rest hlt).trans ?_
    refine ih (fun other n hn p hp => ?_) ((node?_push_of_lt rest top hlt).symm.trans hnode)
    exact hlinked other n ((node?_push_of_lt rest top (lt_of_node? hn)).trans hn) p hp

theorem lt_of_next? {below : Nat} (h : arena.next? id = some below) : id < arena.length := by
  obtain ⟨_, hnode, -⟩ := Option.bind_eq_some_iff.mp h
  exact lt_of_node? hnode

theorem wellLinked_iff : arena.WellLinked ↔ ∀ id below, arena.next? id = some below → below < id := by
  constructor
  · intro hlinked id below h
    obtain ⟨node, hnode, hbelow⟩ := Option.bind_eq_some_iff.mp h
    exact hlinked id node hnode below hbelow
  · intro h id _ hnode below hbelow
    exact h id below (by simp [next?, hnode, hbelow])

theorem next?_cut (arena : Arena α) (id other : Nat) :
    (arena.cut id).next? other = if other = id then none else arena.next? other := by
  simp only [next?, node?_cut]
  split <;> cases arena.node? other <;> simp

theorem chain_induction (hlinked : arena.WellLinked) {P : Nat → List Nat → Prop}
    (hlast : ∀ id < arena.length, arena.next? id = none → P id [id])
    (hlink : ∀ id < arena.length, ∀ below, arena.next? id = some below → below < id →
      P below (arena.chain (some below)) → P id (id :: arena.chain (some below))) (hid : id < arena.length) :
    P id (arena.chain (some id)) := by
  induction id using Nat.strong_induction_on with
  | _ id ih =>
    obtain ⟨node, hnode⟩ := exists_node? hid
    have hnext : arena.next? id = node.next := by simp [next?, hnode]
    rw [chain_eq_cons hlinked hnode]
    cases hbelow : node.next with
    | none =>
      rw [chain_none]
      exact hlast id hid (hnext.trans hbelow)
    | some below =>
      have hlt := hlinked id node hnode below hbelow
      exact hlink id hid below (hnext.trans hbelow) hlt (ih below hlt (hlt.trans hid))

section
variable (hlinked : arena.WellLinked) (hid : id < arena.length)
include hlinked hid
theorem head?_chain : (arena.chain (some id)).head? = some id :=
  chain_induction hlinked (P := fun id ids => ids.head? = some id) (fun _ _ _ => rfl)
    (fun _ _ _ _ _ _ => rfl) hid

/-- Consecutive ids of a list are linked. -/
theorem isChain_chain : (arena.chain (some id)).IsChain fun upper below => arena.next? upper = some below := by
  refine chain_induction hlinked
    (P := fun _ ids => ids.IsChain fun upper below => arena.next? upper = some below)
    (fun _ _ _ => .singleton _) (fun id hid below hnext hlt ih => ?_) hid
  refine isChain_cons.mpr ⟨fun _ hfirst => ?_, ih⟩
  rw [head?_chain hlinked (hlt.trans hid)] at hfirst
  cases hfirst
  exact hnext

theorem next?_getLast? : ∃ last, (arena.chain (some id)).getLast? = some last ∧ arena.next? last = none := by
  refine chain_induction hlinked (P := fun _ ids => ∃ last, ids.getLast? = some last ∧ arena.next? last = none)
    (fun id _ hnone => ⟨id, rfl, hnone⟩) (fun id hid _ _ _ ih => ?_) hid
  obtain ⟨last, hlast, hnone⟩ := ih
  exact ⟨last, by rw [getLast?_cons, hlast]; rfl, hnone⟩

theorem eq_append_of_next?_eq_none {last : Nat}
    (hmem : last ∈ arena.chain (some id)) (hnone : arena.next? last = none) :
    ∃ upper, arena.chain (some id) = upper ++ [last] := by
  obtain ⟨upper, lower, hsplit⟩ := append_of_mem hmem
  cases lower with
  | nil => exact ⟨_, hsplit⟩
  | cons =>
    have hchain := isChain_chain hlinked hid
    rw [hsplit] at hchain
    have hlink := (isChain_cons_cons.mp (isChain_append.mp hchain).2.1).1
    rw [hnone] at hlink
    cases hlink
end

/-- The ids of a list are distinct. -/
theorem chain_nodup (arena : Arena α) (start : Option Nat) : (arena.chain start).Nodup := by
  induction arena generalizing start with
  | nil => cases start <;> exact nodup_nil
  | cons _ _ ih =>
    cases start with
    | none => exact nodup_nil
    | some =>
      unfold chain
      split
      · next h => exact nodup_cons.mpr ⟨fun hmem => (lt_of_mem_chain hmem).ne h, ih _⟩
      · exact ih _

theorem exists_append_of_next? (hlinked : arena.WellLinked) {upper below : Nat} (hid : id < arena.length)
    (hmem : upper ∈ arena.chain (some id)) (hnext : arena.next? upper = some below) :
    ∃ front back, arena.chain (some id) = front ++ upper :: below :: back := by
  obtain ⟨front, back, hsplit⟩ := append_of_mem hmem
  cases back with
  | nil =>
    obtain ⟨_, hlast, hnone⟩ := next?_getLast? hlinked hid
    rw [hsplit, getLast?_concat] at hlast
    cases hlast
    rw [hnone] at hnext
    cases hnext
  | cons x back =>
    have hchain := isChain_chain hlinked hid
    rw [hsplit] at hchain
    have hlink := (isChain_cons_cons.mp (isChain_append.mp hchain).2.1).1
    rw [hnext] at hlink
    cases hlink
    exact ⟨front, back, hsplit⟩

theorem chain_cut_above_last (hlinked : arena.WellLinked) {upper last : Nat} (hid : id < arena.length)
    (hnext : arena.next? upper = some last) (hlast : arena.next? last = none) :
    (arena.cut upper).chain (some id) = arena.chain (some id) ∨
      arena.chain (some id) = (arena.cut upper).chain (some id) ++ [last] := by
  rw [chain_cut]
  by_cases hupper : upper ∈ arena.chain (some id)
  · obtain ⟨front, back, hsplit⟩ := exists_append_of_next? hlinked hid hupper hnext
    have hback : back = [] := by
      cases back with
      | nil => rfl
      | cons x =>
        have hchain := isChain_chain hlinked hid
        rw [hsplit] at hchain
        have hlink := (isChain_cons_cons.mp (isChain_cons_cons.mp
          (isChain_append.mp hchain).2.1).2).1
        rw [hlast] at hlink
        cases hlink
    have hnodup := chain_nodup arena (some id)
    rw [hsplit, hback] at hnodup ⊢
    have hfront : upper ∉ front := fun h =>
      (nodup_append.mp hnodup).2.2 upper h upper (.head _) rfl
    rw [through_append_cons _ hfront]
    exact .inr (by simp)
  · exact .inl (through_of_not_mem hupper)

end Arena
end LeafageEvm
