import Mathlib.Data.List.Nodup
import Mathlib.Logic.Function.Basic

/-!
# Queues threaded through a heap

A queue is given by a pointer to its first and a pointer to its last node and
by the link field of every node.  `Represents` relates them to the list of
nodes that wait, and the two operations of the queue are shown to add a node
at the end of that list and to take one from its front.
-/

namespace SimpleCache

/-- The end pointers of a queue and the link fields of all nodes of the
heap. -/
structure Chain (Node : Type*) where
  head : Option Node
  tail : Option Node
  next : Node → Option Node

namespace Chain

variable {Node : Type*}

/-- The pointers thread exactly `nodes`, from head to tail. -/
structure Represents (chain : Chain Node) (nodes : List Node) : Prop where
  nodup : nodes.Nodup
  head_eq : chain.head = nodes.head?
  tail_eq : chain.tail = nodes.getLast?
  next_eq : ∀ before node after,
    nodes = before ++ node :: after → chain.next node = after.head?

/-- The queue in which nothing waits. -/
def empty : Chain Node where
  head := none
  tail := none
  next := fun _ => none

theorem represents_empty : (empty : Chain Node).Represents [] where
  nodup := List.nodup_nil
  head_eq := rfl
  tail_eq := rfl
  next_eq := by simp

/-- Take the first node, if there is one, and forget the last node when none
is left. -/
def dequeue (chain : Chain Node) : Chain Node :=
  match chain.head with
  | none => chain
  | some node =>
      { chain with
        head := chain.next node
        tail := if chain.next node = none then none else chain.tail }

theorem Represents.dequeue {chain : Chain Node} {node : Node}
    {nodes : List Node} (represents : chain.Represents (node :: nodes)) :
    chain.dequeue.Represents nodes := by
  have headEq : chain.head = some node := represents.head_eq
  have nextEq : chain.next node = nodes.head? :=
    represents.next_eq [] node nodes rfl
  refine ⟨(List.nodup_cons.mp represents.nodup).2, ?_, ?_, ?_⟩
  · simp only [Chain.dequeue, headEq, nextEq]
  · simp only [Chain.dequeue, headEq, nextEq, represents.tail_eq]
    cases nodes with
    | nil => rfl
    | cons second rest => simp [List.getLast?_cons_cons]
  · intro before other after split
    simp only [Chain.dequeue, headEq]
    exact represents.next_eq (node :: before) other after (by simp [split])

theorem Represents.nil_of_head {chain : Chain Node} {nodes : List Node}
    (represents : chain.Represents nodes) (empty : chain.head = none) :
    nodes = [] := by
  cases nodes with
  | nil => rfl
  | cons node nodes =>
      rw [represents.head_eq] at empty
      cases empty

theorem Represents.cons_of_head {chain : Chain Node} {nodes : List Node}
    {node : Node} (represents : chain.Represents nodes)
    (first : chain.head = some node) : ∃ rest, nodes = node :: rest := by
  cases nodes with
  | nil =>
      rw [represents.head_eq] at first
      cases first
  | cons front rest =>
      rw [represents.head_eq] at first
      obtain rfl := Option.some.inj first
      exact ⟨rest, rfl⟩

/-- A queue with no last node has no first one. -/
theorem Represents.head_of_tail {chain : Chain Node} {nodes : List Node}
    (represents : chain.Represents nodes) (empty : chain.tail = none) :
    chain.head = none := by
  rw [represents.tail_eq] at empty
  rw [represents.head_eq, List.getLast?_eq_none_iff.mp empty]
  rfl

variable [DecidableEq Node]

/-- Clear the link of a node, as is done before it enters a queue. -/
def prepare (chain : Chain Node) (node : Node) : Chain Node :=
  { chain with next := Function.update chain.next node none }

/-- Add a node behind the last one. -/
def enqueue (chain : Chain Node) (node : Node) : Chain Node :=
  match chain.tail with
  | none => { chain with head := some node, tail := some node }
  | some last =>
      { chain with
        tail := some node
        next := Function.update chain.next last (some node) }

theorem prepare_next (chain : Chain Node) (node : Node) :
    (chain.prepare node).next node = none := by
  simp [prepare]

theorem prepare_next_of_ne {chain : Chain Node} {node other : Node}
    (different : other ≠ node) :
    (chain.prepare node).next other = chain.next other := by
  simp [prepare, different]

theorem Represents.prepare {chain : Chain Node} {nodes : List Node}
    {node : Node} (represents : chain.Represents nodes)
    (fresh : node ∉ nodes) : (chain.prepare node).Represents nodes where
  nodup := represents.nodup
  head_eq := represents.head_eq
  tail_eq := represents.tail_eq
  next_eq := by
    intro before other after split
    have different : other ≠ node := fun same =>
      fresh (by simp [split, same])
    rw [prepare_next_of_ne different]
    exact represents.next_eq before other after split

/-- Only the link of the last node changes. -/
theorem enqueue_next_of_ne {chain : Chain Node} {node other : Node}
    (notLast : chain.tail ≠ some other) :
    (chain.enqueue node).next other = chain.next other := by
  unfold enqueue
  split
  · rfl
  · next last lastEq =>
      have different : other ≠ last := fun same =>
        notLast (by rw [lastEq, same])
      simp [different]

theorem Represents.enqueue {chain : Chain Node} {nodes : List Node}
    {node : Node} (represents : chain.Represents nodes)
    (fresh : node ∉ nodes) (ends : chain.next node = none) :
    (chain.enqueue node).Represents (nodes ++ [node]) := by
  rcases List.eq_nil_or_concat' nodes with rfl | ⟨front, last, rfl⟩
  · have tailEq : chain.tail = none := represents.tail_eq
    refine ⟨by simp, by simp [Chain.enqueue, tailEq],
      by simp [Chain.enqueue, tailEq], ?_⟩
    intro before other after split
    obtain ⟨rfl, rfl, rfl⟩ : before = [] ∧ other = node ∧ after = [] := by
      cases before <;> simp_all
    simp [Chain.enqueue, tailEq, ends]
  · have tailEq : chain.tail = some last := by
      simp [represents.tail_eq]
    have nodup : (front ++ [last] ++ [node]).Nodup := by
      apply List.nodup_append.mpr
      refine ⟨represents.nodup, by simp, ?_⟩
      intro other member added addedMem same
      obtain rfl := List.mem_singleton.mp addedMem
      exact fresh (same ▸ member)
    refine ⟨nodup, ?_, by simp [Chain.enqueue, tailEq], ?_⟩
    · simp only [Chain.enqueue, tailEq, represents.head_eq]
      cases front <;> simp
    · intro before other after split
      simp only [Chain.enqueue, tailEq]
      rcases List.eq_nil_or_concat' after with rfl | ⟨rest, newest, rfl⟩
      · -- the added node is the last one and keeps its empty link
        obtain rfl : node = other := by
          have := congrArg List.getLast? split
          simpa using this
        have different : node ≠ last := fun same => fresh (by simp [same])
        simp [different, ends]
      · obtain ⟨oldSplit, rfl⟩ : front ++ [last] = before ++ other :: rest ∧
            node = newest := by
          have splitLast : front ++ [last] ++ [node] =
              (before ++ other :: rest) ++ [newest] := by simpa using split
          simpa using List.append_inj' splitLast rfl
        rcases List.eq_nil_or_concat' rest with rfl | ⟨middle, final, rfl⟩
        · obtain rfl : last = other := by
            have := congrArg List.getLast? oldSplit
            simpa using this
          simp
        · -- another node was last, so this link is the old one
          have different : other ≠ last := by
            intro same
            have lastEq : last = final := by
              have := congrArg List.getLast? oldSplit
              simpa [List.getLast?_cons] using this
            have twice : (before ++ last :: (middle ++ [last])).Nodup := by
              have nodup := represents.nodup
              rwa [oldSplit, same, ← lastEq] at nodup
            simp [List.nodup_append] at twice
          have oldNext := represents.next_eq before other _ oldSplit
          simp [different, oldNext]

end Chain

end SimpleCache
