import SimpleCache.Library.Links

/-!
# Lists that stay in order

A list whose nodes are in the order of a transitive relation stays in it when
nodes are unlinked, whatever nodes they are: each pointer still leads onwards.
-/

namespace SimpleCache

namespace Links

variable {Node : Type*} {earlier : Node → Node → Prop} {links : Links Node}
  {nodes : List Node}

/-- Every pointer leads onwards, or back. -/
structure Ascends (earlier : Node → Node → Prop) (links : Links Node) :
    Prop where
  next : ∀ {node after}, links.next node = some after → earlier node after
  prev : ∀ {node before}, links.prev node = some before → earlier before node

/-- What is not listed is linked to nothing. -/
def Detached (links : Links Node) (nodes : List Node) : Prop :=
  ∀ node, node ∉ nodes → links.next node = none ∧ links.prev node = none

theorem Represents.ascends (represents : links.Represents nodes)
    (detached : links.Detached nodes) (sorted : nodes.Pairwise earlier) :
    links.Ascends earlier where
  next := by
    intro node after linked
    have member : node ∈ nodes := by
      by_contra unlisted
      rw [(detached node unlisted).1] at linked
      cases linked
    obtain ⟨front, back, rfl⟩ := List.append_of_mem member
    rw [represents.next_eq front node back rfl] at linked
    exact List.rel_of_pairwise_cons (List.pairwise_append.mp sorted).2.1
      (List.mem_of_head? linked)
  prev := by
    intro node before linked
    have member : node ∈ nodes := by
      by_contra unlisted
      rw [(detached node unlisted).2] at linked
      cases linked
    obtain ⟨front, back, rfl⟩ := List.append_of_mem member
    rw [represents.prev_eq front node back rfl] at linked
    exact (List.pairwise_append.mp sorted).2.2 before
      (List.mem_of_getLast? linked) node List.mem_cons_self

/-- Where every pointer leads onwards, the list is in order. -/
theorem Ascends.sorted (ascends : links.Ascends earlier)
    (transitive : ∀ {first second third}, earlier first second →
      earlier second third → earlier first third)
    (represents : links.Represents nodes) : nodes.Pairwise earlier := by
  have from_ (rest : List Node) : ∀ front, nodes = front ++ rest →
      rest.Pairwise earlier := by
    induction rest with
    | nil => exact fun _ _ => List.Pairwise.nil
    | cons node rest ih =>
        intro front split
        have sorted := ih (front ++ [node]) (by simp [split])
        refine List.pairwise_cons.mpr ⟨fun later member => ?_, sorted⟩
        have linked := represents.next_eq front node rest split
        cases rest with
        | nil => cases member
        | cons second others =>
            have onwards := ascends.next linked
            rcases List.mem_cons.mp member with rfl | further
            · exact onwards
            · exact transitive onwards
                (List.rel_of_pairwise_cons sorted further)
  exact from_ nodes [] rfl

section Updates

variable [DecidableEq Node]

/-- Only unlink and clear nodes. -/
inductive Trims (start : Links Node) : Links Node → Prop
  | refl : Trims start start
  | unlink {links : Links Node} (node : Node) :
      Trims start links → Trims start (links.unlink node)
  | clear {links : Links Node} (node : Node) :
      Trims start links → Trims start
        { links with
          next := Function.update links.next node none
          prev := Function.update links.prev node none }

theorem Trims.trans {first second third : Links Node}
    (trims : first.Trims second) (further : second.Trims third) :
    first.Trims third := by
  induction further with
  | refl => exact trims
  | unlink node _ ih => exact .unlink node ih
  | clear node _ ih => exact .clear node ih

/-- A cleared link leads nowhere. -/
theorem eq_of_cleared {field : Node → Option Node} {node other target : Node}
    (linked : Function.update field node none other = some target) :
    field other = some target := by
  by_cases same : other = node
  · rw [same, Function.update_self] at linked
    cases linked
  · rw [Function.update_of_ne same] at linked
    exact linked

theorem Ascends.unlink (ascends : links.Ascends earlier)
    (transitive : ∀ {first second third}, earlier first second →
      earlier second third → earlier first third) (node : Node) :
    (links.unlink node).Ascends earlier where
  next := by
    intro other after linked
    change Function.update (writeThrough links.next (links.prev node)
      (links.next node)) node none other = some after at linked
    have linked := eq_of_cleared linked
    cases before : links.prev node with
    | none =>
        rw [before] at linked
        exact ascends.next linked
    | some previous =>
        rw [before] at linked
        change Function.update links.next previous (links.next node) other =
          some after at linked
        by_cases isPrevious : other = previous
        · subst isPrevious
          rw [Function.update_self] at linked
          exact transitive (ascends.prev before) (ascends.next linked)
        · rw [Function.update_of_ne isPrevious] at linked
          exact ascends.next linked
  prev := by
    intro other before linked
    change Function.update (writeThrough links.prev (links.next node)
      (links.prev node)) node none other = some before at linked
    have linked := eq_of_cleared linked
    cases after : links.next node with
    | none =>
        rw [after] at linked
        exact ascends.prev linked
    | some following =>
        rw [after] at linked
        change Function.update links.prev following (links.prev node) other =
          some before at linked
        by_cases isFollowing : other = following
        · subst isFollowing
          rw [Function.update_self] at linked
          exact transitive (ascends.prev linked) (ascends.next after)
        · rw [Function.update_of_ne isFollowing] at linked
          exact ascends.prev linked

theorem Ascends.clear (ascends : links.Ascends earlier) (node : Node) :
    Ascends earlier
      { links with
        next := Function.update links.next node none
        prev := Function.update links.prev node none } where
  next := fun linked => ascends.next (eq_of_cleared linked)
  prev := fun linked => ascends.prev (eq_of_cleared linked)

/-- Unlinking nodes, listed or not, leaves a list in order. -/
theorem Trims.sorted {after : Links Node} {rest : List Node}
    (trims : links.Trims after)
    (transitive : ∀ {first second third}, earlier first second →
      earlier second third → earlier first third)
    (represents : links.Represents nodes) (detached : links.Detached nodes)
    (sorted : nodes.Pairwise earlier) (remains : after.Represents rest) :
    rest.Pairwise earlier := by
  have ascends : after.Ascends earlier := by
    clear remains
    induction trims with
    | refl => exact represents.ascends detached sorted
    | unlink node _ ih => exact ih.unlink transitive node
    | clear node _ ih => exact ih.clear node
  exact ascends.sorted transitive remains

/-- Taking a listed node out leaves it linked to nothing. -/
theorem Represents.detached_unlink {front back : List Node} {node : Node}
    (represents : links.Represents (front ++ node :: back))
    (detached : links.Detached (front ++ node :: back)) :
    (links.unlink node).Detached (front ++ back) := by
  intro other unlisted
  unfold Links.unlink
  by_cases same : other = node
  · subst same
    exact ⟨Function.update_self .., Function.update_self ..⟩
  have absent : other ∉ front ++ node :: back := by
    simp only [List.mem_append, List.mem_cons] at unlisted ⊢
    tauto
  obtain ⟨next, prev⟩ := detached other absent
  have before := represents.prev_eq front node back rfl
  have after := represents.next_eq front node back rfl
  dsimp only
  rw [Function.update_of_ne same, Function.update_of_ne same]
  constructor
  · cases linked : links.prev node with
    | none => exact next
    | some previous =>
        have member : previous ∈ front :=
          List.mem_of_getLast? (before.symm.trans linked)
        refine (Function.update_of_ne ?_ ..).trans next
        rintro rfl
        exact unlisted (List.mem_append_left _ member)
  · cases linked : links.next node with
    | none => exact prev
    | some following =>
        have member : following ∈ back :=
          List.mem_of_mem_head? (after.symm.trans linked)
        refine (Function.update_of_ne ?_ ..).trans prev
        rintro rfl
        exact unlisted (List.mem_append_right _ member)

/-- Only the new node and the last one are linked anew. -/
theorem Represents.detached_append {node : Node}
    (represents : links.Represents nodes) (detached : links.Detached nodes) :
    (links.append node).Detached (nodes ++ [node]) := by
  intro other unlisted
  simp only [List.mem_append, List.mem_singleton, not_or] at unlisted
  obtain ⟨absent, different⟩ := unlisted
  obtain ⟨next, prev⟩ := detached other absent
  unfold Links.append
  dsimp only
  rw [Function.update_of_ne different, Function.update_of_ne different]
  refine ⟨?_, prev⟩
  cases last : links.tail with
  | none => exact next
  | some previous =>
      have member : previous ∈ nodes :=
        List.mem_of_getLast? (represents.tail_eq.symm.trans last)
      refine (Function.update_of_ne ?_ ..).trans next
      rintro rfl
      exact absent member

theorem Detached.clear (detached : links.Detached nodes) (node : Node) :
    Detached
      { links with
        next := Function.update links.next node none
        prev := Function.update links.prev node none } nodes := by
  intro other unlisted
  obtain ⟨next, prev⟩ := detached other unlisted
  dsimp only
  by_cases same : other = node
  · subst same
    exact ⟨Function.update_self .., Function.update_self ..⟩
  · rw [Function.update_of_ne same, Function.update_of_ne same]
    exact ⟨next, prev⟩

/-- Every pointer leads to one of these nodes. -/
structure Within (nodes : List Node) (links : Links Node) : Prop where
  head : ∀ {node}, links.head = some node → node ∈ nodes
  next : ∀ {node after}, links.next node = some after → after ∈ nodes
  tail : ∀ {node}, links.tail = some node → node ∈ nodes
  prev : ∀ {node before}, links.prev node = some before → before ∈ nodes

omit [DecidableEq Node] in
theorem Represents.within (represents : links.Represents nodes)
    (detached : links.Detached nodes) : Within nodes links where
  head := fun first =>
    List.mem_of_mem_head? (represents.head_eq.symm.trans first)
  tail := fun last =>
    List.mem_of_getLast? (represents.tail_eq.symm.trans last)
  next := by
    intro node after linked
    have member : node ∈ nodes := by
      by_contra unlisted
      rw [(detached node unlisted).1] at linked
      cases linked
    obtain ⟨front, back, rfl⟩ := List.append_of_mem member
    rw [represents.next_eq front node back rfl] at linked
    have onwards : after ∈ back := List.mem_of_mem_head? linked
    simp [onwards]
  prev := by
    intro node before linked
    have member : node ∈ nodes := by
      by_contra unlisted
      rw [(detached node unlisted).2] at linked
      cases linked
    obtain ⟨front, back, rfl⟩ := List.append_of_mem member
    rw [represents.prev_eq front node back rfl] at linked
    have onwards : before ∈ front := List.mem_of_getLast? linked
    simp [onwards]

theorem writeThrough_within {field : Node → Option Node}
    {pointer value : Option Node} {node other target : Node}
    (field_ : ∀ {node after}, field node = some after → after ∈ nodes)
    (value_ : ∀ {after}, value = some after → after ∈ nodes)
    (linked : Function.update (writeThrough field pointer value) node none
      other = some target) : target ∈ nodes := by
  have linked := eq_of_cleared linked
  cases pointer with
  | none => exact field_ linked
  | some through =>
      change Function.update field through value other = some target at linked
      by_cases isThrough : other = through
      · rw [isThrough, Function.update_self] at linked
        exact value_ linked
      · rw [Function.update_of_ne isThrough] at linked
        exact field_ linked

theorem Within.unlink (within : Within nodes links) (node : Node) :
    Within nodes (links.unlink node) where
  head := by
    intro first isFirst
    change (if links.prev node = none then links.next node
      else links.head) = some first at isFirst
    split at isFirst
    · exact within.next isFirst
    · exact within.head isFirst
  tail := by
    intro last isLast
    change (if links.next node = none then links.prev node
      else links.tail) = some last at isLast
    split at isLast
    · exact within.prev isLast
    · exact within.tail isLast
  next := writeThrough_within within.next within.next
  prev := writeThrough_within within.prev within.prev

theorem Within.clear (within : Within nodes links) (node : Node) :
    Within nodes
      { links with
        next := Function.update links.next node none
        prev := Function.update links.prev node none } where
  head := within.head
  tail := within.tail
  next := fun linked => within.next (eq_of_cleared linked)
  prev := fun linked => within.prev (eq_of_cleared linked)

/-- Unlinking nodes, listed or not, lists nothing new. -/
theorem Trims.subset {after : Links Node} {rest : List Node}
    (trims : links.Trims after) (represents : links.Represents nodes)
    (detached : links.Detached nodes) (remains : after.Represents rest) :
    rest ⊆ nodes := by
  have within : Within nodes after := by
    clear remains
    induction trims with
    | refl => exact represents.within detached
    | unlink node _ ih => exact ih.unlink node
    | clear node _ ih => exact ih.clear node
  intro node member
  obtain ⟨front, back, rfl⟩ := List.append_of_mem member
  rcases List.eq_nil_or_concat front with rfl | ⟨front, previous, rfl⟩
  · exact within.head remains.head_eq
  · refine within.next (remains.next_eq front previous (node :: back) ?_)
    simp

end Updates

end Links

end SimpleCache
