import Mathlib.Data.List.Nodup
import Mathlib.Logic.Function.Basic

/-!
# Doubly linked lists threaded through a heap

A list is given by its two end pointers and by the two link fields of every
node.  `unlink` and `append` are the usual pointer updates.  `Represents`
relates the pointers to the list of nodes they thread, and the two updates
are shown to remove one node and to add one node at the tail.
-/

namespace SimpleCache

/-- The end pointers of a doubly linked list and the link fields of all
nodes of the heap. -/
structure Links (Node : Type*) where
  head : Option Node
  tail : Option Node
  next : Node → Option Node
  prev : Node → Option Node

namespace Links

variable {Node : Type*}

/-- Following `step` from `start` visits exactly `nodes` and then ends. -/
def Follows (step : Node → Option Node) : Option Node → List Node → Prop
  | none, [] => True
  | some node, visited :: rest =>
      node = visited ∧ Follows step (step node) rest
  | _, _ => False

/-- The pointers thread exactly `nodes`, from head to tail. -/
structure Represents (links : Links Node) (nodes : List Node) : Prop where
  nodup : nodes.Nodup
  head_eq : links.head = nodes.head?
  tail_eq : links.tail = nodes.getLast?
  next_eq : ∀ before node after,
    nodes = before ++ node :: after → links.next node = after.head?
  prev_eq : ∀ before node after,
    nodes = before ++ node :: after → links.prev node = before.getLast?

/-- The list with no nodes. -/
def empty : Links Node where
  head := none
  tail := none
  next := fun _ => none
  prev := fun _ => none

theorem represents_empty : (empty : Links Node).Represents [] where
  nodup := List.nodup_nil
  head_eq := rfl
  tail_eq := rfl
  next_eq := by simp
  prev_eq := by simp

section Walks

private theorem follows_suffix {links : Links Node} {nodes : List Node}
    (represents : links.Represents nodes) (before rest : List Node)
    (split : nodes = before ++ rest) :
    Follows links.next rest.head? rest := by
  induction rest generalizing before with
  | nil => simp [Follows]
  | cons node after ih =>
      refine ⟨rfl, ?_⟩
      rw [represents.next_eq before node after split]
      exact ih (before ++ [node]) (by simp [split])

private theorem follows_prefix {links : Links Node} {nodes : List Node}
    (represents : links.Represents nodes) (reversed after : List Node)
    (split : nodes = reversed.reverse ++ after) :
    Follows links.prev reversed.head? reversed := by
  induction reversed generalizing after with
  | nil => simp [Follows]
  | cons node before ih =>
      have splitNode : nodes = before.reverse ++ node :: after := by
        simp [split]
      refine ⟨rfl, ?_⟩
      rw [represents.prev_eq before.reverse node after splitNode,
        List.getLast?_reverse]
      exact ih (node :: after) splitNode

/-- Walking forwards from the head visits the represented nodes in order. -/
theorem Represents.follows_next {links : Links Node} {nodes : List Node}
    (represents : links.Represents nodes) :
    Follows links.next links.head nodes := by
  rw [represents.head_eq]
  exact follows_suffix represents [] nodes rfl

/-- Walking backwards from the tail visits them in the opposite order. -/
theorem Represents.follows_prev {links : Links Node} {nodes : List Node}
    (represents : links.Represents nodes) :
    Follows links.prev links.tail nodes.reverse := by
  have lastIsHead : links.tail = nodes.reverse.head? := by
    rw [represents.tail_eq, List.head?_reverse]
  rw [lastIsHead]
  exact follows_prefix represents nodes.reverse [] (by simp)

/-- The nodes visited by a walk are determined by where it starts. -/
theorem Follows.unique {step : Node → Option Node} {start : Option Node}
    {first second : List Node} (firstWalk : Follows step start first)
    (secondWalk : Follows step start second) : first = second := by
  induction first generalizing start second with
  | nil =>
      cases start <;> cases second <;> simp_all [Follows]
  | cons node rest ih =>
      cases start with
      | none => simp [Follows] at firstWalk
      | some current =>
          cases second with
          | nil => simp [Follows] at secondWalk
          | cons other others =>
              obtain ⟨rfl, firstRest⟩ := firstWalk
              obtain ⟨rfl, secondRest⟩ := secondWalk
              rw [ih firstRest secondRest]

/-- A pointer structure threads at most one list of nodes. -/
theorem Represents.unique {links : Links Node} {first second : List Node}
    (firstRep : links.Represents first) (secondRep : links.Represents second) :
    first = second :=
  firstRep.follows_next.unique secondRep.follows_next

end Walks

section Views

variable {links : Links Node} {nodes : List Node}

/-- The list read from its tail. -/
def reverse (links : Links Node) : Links Node where
  head := links.tail
  tail := links.head
  next := links.prev
  prev := links.next

theorem Represents.reverse (represents : links.Represents nodes) :
    links.reverse.Represents nodes.reverse := by
  have turned : ∀ {before after : List Node} {node : Node},
      nodes.reverse = before ++ node :: after →
        nodes = after.reverse ++ node :: before.reverse := by
    intro before after node split
    have back := congrArg List.reverse split
    simpa using back
  refine ⟨List.nodup_reverse.mpr represents.nodup, ?_, ?_, ?_, ?_⟩
  · rw [List.head?_reverse]
    exact represents.tail_eq
  · rw [List.getLast?_reverse]
    exact represents.head_eq
  · intro before node after split
    have prev := represents.prev_eq _ node _ (turned split)
    rw [List.getLast?_reverse] at prev
    exact prev
  · intro before node after split
    have next := represents.next_eq _ node _ (turned split)
    rw [List.head?_reverse] at next
    exact next

/-- Pointers that agree on the nodes of the list thread the same list. -/
theorem Represents.congr {other : Links Node}
    (represents : links.Represents nodes) (head : other.head = links.head)
    (tail : other.tail = links.tail)
    (next : ∀ node ∈ nodes, other.next node = links.next node)
    (prev : ∀ node ∈ nodes, other.prev node = links.prev node) :
    other.Represents nodes where
  nodup := represents.nodup
  head_eq := head.trans represents.head_eq
  tail_eq := tail.trans represents.tail_eq
  next_eq := by
    intro before node after split
    rw [next node (by simp [split])]
    exact represents.next_eq before node after split
  prev_eq := by
    intro before node after split
    rw [prev node (by simp [split])]
    exact represents.prev_eq before node after split

end Views

section Updates

variable [DecidableEq Node]

/-- Overwrite a link field of the node a pointer refers to, if it refers to
one. -/
def writeThrough (field : Node → Option Node) (pointer value : Option Node) :
    Node → Option Node :=
  match pointer with
  | some node => Function.update field node value
  | none => field

/-- Take one node out of the list and clear its links. -/
def unlink (links : Links Node) (node : Node) : Links Node where
  head := if links.prev node = none then links.next node else links.head
  tail := if links.next node = none then links.prev node else links.tail
  next := Function.update
    (writeThrough links.next (links.prev node) (links.next node)) node none
  prev := Function.update
    (writeThrough links.prev (links.next node) (links.prev node)) node none

/-- Insert one node at the tail. -/
def append (links : Links Node) (node : Node) : Links Node where
  head := if links.head = none then some node else links.head
  tail := some node
  next := Function.update
    (writeThrough links.next links.tail (some node)) node none
  prev := Function.update links.prev node links.tail

private theorem writeThrough_of_ne {field : Node → Option Node}
    {pointer value : Option Node} {node : Node}
    (different : pointer ≠ some node) :
    writeThrough field pointer value node = field node := by
  cases pointer with
  | none => rfl
  | some target =>
      have : node ≠ target := fun equal => different (by rw [equal])
      simp [writeThrough, this]

private theorem writeThrough_self {field : Node → Option Node}
    {value : Option Node} {node : Node} :
    writeThrough field (some node) value node = value := by
  simp [writeThrough]

omit [DecidableEq Node] in
private theorem getLast?_ne_of_later {before rest : List Node} {node : Node}
    (nodup : (before ++ rest).Nodup) (member : node ∈ rest) :
    before.getLast? ≠ some node := fun equal =>
  (List.nodup_append.mp nodup).2.2 node (List.mem_of_getLast? equal)
    node member rfl

omit [DecidableEq Node] in
private theorem head?_ne_of_earlier {before rest : List Node} {node : Node}
    (nodup : (before ++ rest).Nodup) (member : node ∈ before) :
    rest.head? ≠ some node := fun equal =>
  (List.nodup_append.mp nodup).2.2 node member
    node (List.mem_of_head? equal) rfl

private theorem unlink_next_eq {links : Links Node} {before after : List Node}
    {node : Node} (represents : links.Represents (before ++ node :: after))
    (front : List Node) (other : Node) (back : List Node)
    (split : before ++ after = front ++ other :: back) :
    (links.unlink node).next other = back.head? := by
  have nodup : (node :: (before ++ after)).Nodup :=
    List.nodup_middle.mp represents.nodup
  have otherNe : other ≠ node := fun equal =>
    (List.nodup_cons.mp nodup).1 (by simp [split, equal])
  have nodup := (List.nodup_cons.mp nodup).2
  simp only [Links.unlink, represents.next_eq before node after rfl,
    represents.prev_eq before node after rfl, Function.update_of_ne otherNe]
  rcases List.append_eq_append_iff.mp split with
    ⟨middle, rfl, afterEq⟩ | ⟨middle, beforeEq, backEq⟩
  · -- the other node stands after the removed one
    rw [writeThrough_of_ne (getLast?_ne_of_later nodup (by simp [afterEq]))]
    exact represents.next_eq (before ++ node :: middle) other back
      (by simp [afterEq])
  · cases middle with
    | nil =>
        have afterEq : after = other :: back := by simpa using backEq.symm
        rw [writeThrough_of_ne (getLast?_ne_of_later nodup (by simp [afterEq]))]
        exact represents.next_eq (before ++ [node]) other back
          (by simp [afterEq])
    | cons first rest =>
        obtain ⟨rfl, backTail⟩ : other = first ∧ back = rest ++ after := by
          simpa using backEq
        cases rest with
        | nil =>
            have last : before.getLast? = some other := by simp [beforeEq]
            rw [last, writeThrough_self]
            simp [backTail]
        | cons second rest =>
            have nodupBefore : (front ++ other :: second :: rest).Nodup :=
              beforeEq ▸ (List.nodup_append.mp nodup).1
            have notLast : before.getLast? ≠ some other := by
              intro equal
              apply (List.nodup_cons.mp (List.nodup_append.mp nodupBefore).2.1).1
              rw [beforeEq, List.getLast?_append, List.getLast?_cons_cons] at equal
              exact List.mem_of_getLast? (by simpa using equal)
            rw [writeThrough_of_ne notLast,
              represents.next_eq front other (second :: rest ++ node :: after)
                (by simp [beforeEq])]
            simp [backTail]

private theorem unlink_prev_eq {links : Links Node} {before after : List Node}
    {node : Node} (represents : links.Represents (before ++ node :: after))
    (front : List Node) (other : Node) (back : List Node)
    (split : before ++ after = front ++ other :: back) :
    (links.unlink node).prev other = front.getLast? := by
  have nodup : (node :: (before ++ after)).Nodup :=
    List.nodup_middle.mp represents.nodup
  have otherNe : other ≠ node := fun equal =>
    (List.nodup_cons.mp nodup).1 (by simp [split, equal])
  have nodup := (List.nodup_cons.mp nodup).2
  simp only [Links.unlink, represents.next_eq before node after rfl,
    represents.prev_eq before node after rfl, Function.update_of_ne otherNe]
  rcases List.append_eq_append_iff.mp split with
    ⟨middle, frontEq, afterEq⟩ | ⟨middle, beforeEq, backEq⟩
  · cases middle with
    | nil =>
        have first : after.head? = some other := by simp [afterEq]
        rw [first, writeThrough_self]
        simp [frontEq]
    | cons second rest =>
        have nodupAfter : (second :: rest ++ other :: back).Nodup :=
          afterEq ▸ (List.nodup_append.mp nodup).2.1
        have notFirst : after.head? ≠ some other := by
          intro equal
          obtain rfl : second = other := by simpa [afterEq] using equal
          simp at nodupAfter
        rw [writeThrough_of_ne notFirst,
          represents.prev_eq (before ++ node :: second :: rest) other back
            (by simp [afterEq])]
        simp [frontEq, List.getLast?_append, List.getLast?_cons]
  · cases middle with
    | nil =>
        have afterEq : after = other :: back := by simpa using backEq.symm
        have first : after.head? = some other := by simp [afterEq]
        rw [first, writeThrough_self]
        simp [beforeEq]
    | cons first rest =>
        obtain ⟨rfl, -⟩ : other = first ∧ back = rest ++ after := by
          simpa using backEq
        rw [writeThrough_of_ne (head?_ne_of_earlier nodup (by simp [beforeEq]))]
        exact represents.prev_eq front other (rest ++ node :: after)
          (by simp [beforeEq])

/-- Unlinking a node of the list removes exactly that node. -/
theorem Represents.unlink {links : Links Node} {before after : List Node}
    {node : Node}
    (represents : links.Represents (before ++ node :: after)) :
    (links.unlink node).Represents (before ++ after) := by
  have nextNode := represents.next_eq before node after rfl
  have prevNode := represents.prev_eq before node after rfl
  refine ⟨(List.nodup_cons.mp (List.nodup_middle.mp represents.nodup)).2,
    ?_, ?_, unlink_next_eq represents, unlink_prev_eq represents⟩
  · -- the head moves only when the removed node was first
    simp only [Links.unlink, prevNode, nextNode, represents.head_eq]
    cases before <;> simp
  · simp only [Links.unlink, prevNode, nextNode, represents.tail_eq]
    cases after with
    | nil => simp
    | cons first rest => simp [List.getLast?_append, List.getLast?_cons]

/-- Clearing the links of a node that is not in the list. -/
theorem Represents.clear {links : Links Node} {nodes : List Node}
    {node : Node} (represents : links.Represents nodes)
    (fresh : node ∉ nodes) :
    Represents { links with
      next := Function.update links.next node none
      prev := Function.update links.prev node none } nodes where
  nodup := represents.nodup
  head_eq := represents.head_eq
  tail_eq := represents.tail_eq
  next_eq := by
    intro before other after split
    have different : other ≠ node := fun same =>
      fresh (by simp [split, same])
    dsimp only
    rw [Function.update_of_ne different]
    exact represents.next_eq before other after split
  prev_eq := by
    intro before other after split
    have different : other ≠ node := fun same =>
      fresh (by simp [split, same])
    dsimp only
    rw [Function.update_of_ne different]
    exact represents.prev_eq before other after split

/-- Appending a node that is not in the list adds it at the tail. -/
theorem Represents.append {links : Links Node} {nodes : List Node}
    {node : Node} (represents : links.Represents nodes)
    (fresh : node ∉ nodes) :
    (links.append node).Represents (nodes ++ [node]) := by
  refine ⟨?_, ?_, ?_, ?_, ?_⟩
  · exact List.nodup_append.mpr ⟨represents.nodup, by simp,
      fun other member last lastMem equal => fresh (by simp_all)⟩
  · simp only [Links.append, represents.head_eq]
    cases nodes <;> simp
  · simp [Links.append]
  · intro front other back split
    rcases List.eq_nil_or_concat back with rfl | ⟨rest, last, rfl⟩
    · have otherEq : node = other := by
        have := congrArg List.getLast? split
        simpa using this
      simp [Links.append, otherEq]
    · have nodesEq : nodes = front ++ other :: rest ∧ node = last := by
        have splitLast : nodes ++ [node] = (front ++ other :: rest) ++ [last] := by
          simpa using split
        simpa using List.append_inj' splitLast rfl
      obtain ⟨nodesEq, rfl⟩ := nodesEq
      have otherNe : other ≠ node := fun equal =>
        fresh (by simp [nodesEq, equal])
      simp only [Links.append, Function.update_of_ne otherNe]
      cases rest with
      | nil =>
          have last : links.tail = some other := by
            simp [represents.tail_eq, nodesEq]
          rw [last, writeThrough_self]
          simp
      | cons second rest =>
          have notLast : links.tail ≠ some other := by
            rw [represents.tail_eq, nodesEq]
            intro equal
            have nodupNodes := represents.nodup
            rw [nodesEq] at nodupNodes
            have suffixNodup := (List.nodup_append.mp nodupNodes).2.1
            apply (List.nodup_cons.mp suffixNodup).1
            rw [List.getLast?_append] at equal
            simp only [List.getLast?_cons_cons] at equal
            exact List.mem_of_getLast? (by simpa using equal)
          rw [writeThrough_of_ne notLast,
            represents.next_eq front other (second :: rest) nodesEq]
          simp
  · intro front other back split
    rcases List.eq_nil_or_concat back with rfl | ⟨rest, last, rfl⟩
    · have splitLast : nodes = front ∧ node = other := by
        simpa using List.append_inj' split rfl
      obtain ⟨rfl, rfl⟩ := splitLast
      simp [Links.append, represents.tail_eq]
    · have nodesEq : nodes = front ++ other :: rest ∧ node = last := by
        have splitLast : nodes ++ [node] = (front ++ other :: rest) ++ [last] := by
          simpa using split
        simpa using List.append_inj' splitLast rfl
      obtain ⟨nodesEq, rfl⟩ := nodesEq
      have otherNe : other ≠ node := fun equal =>
        fresh (by simp [nodesEq, equal])
      simp only [Links.append, Function.update_of_ne otherNe]
      exact represents.prev_eq front other rest nodesEq

/-- Insert one node at the head. -/
def prepend (links : Links Node) (node : Node) : Links Node :=
  (links.reverse.append node).reverse

/-- Prepending a node that is not in the list adds it at the head. -/
theorem Represents.prepend {links : Links Node} {nodes : List Node}
    {node : Node} (represents : links.Represents nodes)
    (fresh : node ∉ nodes) :
    (links.prepend node).Represents (node :: nodes) := by
  have appended := @Represents.append _ _ _ _ node represents.reverse
    (fun member => fresh (List.mem_reverse.mp member))
  have turned := appended.reverse
  rw [List.reverse_append, List.reverse_reverse] at turned
  exact turned

/-- Updating a list leaves the links of all other nodes alone. -/
theorem Represents.unlink_other {links : Links Node} {nodes : List Node}
    {node other : Node} (represents : links.Represents nodes)
    (member : node ∈ nodes) (outside : other ∉ nodes) :
    (links.unlink node).next other = links.next other ∧
      (links.unlink node).prev other = links.prev other := by
  obtain ⟨before, after, rfl⟩ := List.append_of_mem member
  have different : other ≠ node := fun same => outside (same ▸ member)
  have next := represents.next_eq before node after rfl
  have prev := represents.prev_eq before node after rfl
  unfold Links.unlink
  dsimp only
  rw [Function.update_of_ne different, Function.update_of_ne different, next,
    prev]
  constructor
  · refine writeThrough_of_ne fun same => outside ?_
    exact List.mem_append_left _ (List.mem_of_getLast? same)
  · refine writeThrough_of_ne fun same => outside ?_
    exact List.mem_append_right _
      (List.mem_cons_of_mem _ (List.mem_of_head? same))

theorem Represents.append_other {links : Links Node} {nodes : List Node}
    {node other : Node} (represents : links.Represents nodes)
    (different : other ≠ node) (outside : other ∉ nodes) :
    (links.append node).next other = links.next other ∧
      (links.append node).prev other = links.prev other := by
  unfold Links.append
  dsimp only
  rw [Function.update_of_ne different, Function.update_of_ne different,
    represents.tail_eq]
  refine ⟨writeThrough_of_ne fun same => outside ?_, rfl⟩
  exact List.mem_of_getLast? same

theorem Represents.prepend_other {links : Links Node} {nodes : List Node}
    {node other : Node} (represents : links.Represents nodes)
    (different : other ≠ node) (outside : other ∉ nodes) :
    (links.prepend node).next other = links.next other ∧
      (links.prepend node).prev other = links.prev other := by
  have kept := represents.reverse.append_other different
    (fun member => outside (List.mem_reverse.mp member))
  exact ⟨kept.2, kept.1⟩

end Updates

end Links

end SimpleCache
