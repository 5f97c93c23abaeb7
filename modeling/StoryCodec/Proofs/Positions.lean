import StoryCodec.Proofs.Depth

namespace StoryCodec

/-- What stands in a container, the content first. -/
def Container.children (c : Container) : List Object :=
  c.content ++ c.named.map (·.2)

namespace Object

def children : Object → List Object
  | container c => c.children
  | _ => []

/-- The object at an address: the way to it from the root, by the number of a child at each step. -/
def at? : List Nat → Object → Option Object
  | [], o => some o
  | n :: address, o => o.children[n]?.bind (at? address)

/-- Each object of a tree, at its address and once: before all that stands in it, and those that
stand in one container in their order there. -/
structure Traversal (o : Object) (visits : List (List Nat × Object)) : Prop where
  ordered : visits.Pairwise (fun visit later => visit.1 < later.1)
  complete : ∀ address child, (address, child) ∈ visits ↔ o.at? address = some child

/-- A visit in a child, with its address in the parent. -/
def inChild (n : Nat) (visit : List Nat × Object) : List Nat × Object := (n :: visit.1, visit.2)

mutual

def visits : Object → List (List Nat × Object)
  | container c => ([], container c) :: containerVisits c
  | o => [([], o)]
termination_by structural o => o

def containerVisits : Container → List (List Nat × Object)
  | ⟨_, _, content, named⟩ => contentVisits 0 content ++ namedVisits content.length named
termination_by structural c => c

def contentVisits (n : Nat) : List Object → List (List Nat × Object)
  | [] => []
  | o :: os => o.visits.map (inChild n) ++ contentVisits (n + 1) os
termination_by structural os => os

def namedVisits (n : Nat) : List (String × Object) → List (List Nat × Object)
  | [] => []
  | (_, o) :: es => o.visits.map (inChild n) ++ namedVisits (n + 1) es
termination_by structural es => es

end

theorem children_leaf {o : Object} (h : o.container? = none) : o.children = [] := by
  cases o with
  | container => simp [container?] at h
  | _ => rfl

theorem visits_leaf {o : Object} (h : o.container? = none) : o.visits = [([], o)] := by
  cases o with
  | container => simp [container?] at h
  | _ => rfl

theorem contentVisits_eq (n : Nat) (os : List Object) : contentVisits n os =
    (os.zipIdx n).flatMap fun child => child.1.visits.map (inChild child.2) := by
  induction os generalizing n with
  | nil => rfl
  | cons o os ih => rw [contentVisits, ih, List.zipIdx_cons, List.flatMap_cons]

theorem namedVisits_eq (n : Nat) (es : List (String × Object)) :
    namedVisits n es = contentVisits n (es.map (·.2)) := by
  induction es generalizing n with
  | nil => rfl
  | cons e es ih => rw [namedVisits, ih, List.map_cons, contentVisits]

/-- A container is visited before its children, which are visited by their numbers. -/
theorem visits_container (c : Container) : (container c).visits = ([], container c) ::
    c.children.zipIdx.flatMap fun child => child.1.visits.map (inChild child.2) := by
  obtain ⟨name, flags, content, named⟩ := c
  rw [visits, containerVisits, namedVisits_eq, contentVisits_eq, contentVisits_eq,
    Container.children, List.zipIdx_append, List.flatMap_append, Nat.zero_add]

theorem mem_visits_cons {c : Container} {n : Nat} {address : List Nat} {o : Object} :
    (n :: address, o) ∈ (container c).visits ↔
      ∃ child, c.children[n]? = some child ∧ (address, o) ∈ child.visits := by
  have hnumber (child : Object) :
      (child, n) ∈ c.children.zipIdx ↔ c.children[n]? = some child :=
    List.mk_mem_zipIdx_iff_getElem?
  rw [visits_container, List.mem_cons, List.mem_flatMap]
  constructor
  · rintro (heq | ⟨⟨child, m⟩, hchild, hvisit⟩)
    · cases heq
    · obtain ⟨visit, hinner, heq⟩ := List.mem_map.1 hvisit
      cases heq
      exact ⟨child, (hnumber child).1 hchild, hinner⟩
  · rintro ⟨child, hchild, hvisit⟩
    exact .inr ⟨(child, n), (hnumber child).2 hchild, List.mem_map.2 ⟨(address, o), hvisit, rfl⟩⟩

theorem pairwise_visits_container {c : Container}
    (h : ∀ o ∈ c.children, o.visits.Pairwise (fun visit later => visit.1 < later.1)) :
    (container c).visits.Pairwise (fun visit later => visit.1 < later.1) := by
  rw [visits_container, List.pairwise_cons, List.pairwise_flatMap]
  refine ⟨?_, ?_, ?_⟩
  · intro visit hvisit
    obtain ⟨child, -, hvisit⟩ := List.mem_flatMap.1 hvisit
    obtain ⟨visit, -, rfl⟩ := List.mem_map.1 hvisit
    exact List.nil_lt_cons _ _
  · intro child hchild
    have ho := h child.1 (List.fst_mem_of_mem_zipIdx hchild)
    exact List.pairwise_map.2 (ho.imp fun hlt => List.cons_lt_cons_iff.2 (.inr ⟨rfl, hlt⟩))
  · -- In different children the first numbers of the addresses decide.
    have hnumbers : c.children.zipIdx.Pairwise (fun child later => child.2 < later.2) := by
      rw [← List.pairwise_map (f := Prod.snd), List.zipIdx_map_snd]
      exact List.pairwise_lt_range'
    refine hnumbers.imp fun hlt visit hvisit later hlater => ?_
    obtain ⟨visit, -, rfl⟩ := List.mem_map.1 hvisit
    obtain ⟨later, -, rfl⟩ := List.mem_map.1 hlater
    exact List.cons_lt_cons_iff.2 (.inl hlt)

theorem forall_mem_children {P : Object → Prop} {c : Container} (hc : ∀ o ∈ c.content, P o)
    (hn : ∀ e ∈ c.named, P e.2) : ∀ o ∈ c.children, P o := by
  intro o ho
  rcases List.mem_append.1 ho with ho | ho
  · exact hc o ho
  · obtain ⟨e, he, rfl⟩ := List.mem_map.1 ho
    exact hn e he

/-- The visits go through the whole tree, a container before its children and these in their order. -/
theorem traversal_visits (o : Object) : o.Traversal o.visits := by
  induction o using tree_induction with
  | leaf o h =>
      rw [visits_leaf h]
      refine ⟨List.pairwise_singleton _ _, fun address child => ?_⟩
      cases address with
      | nil => simp [at?, eq_comm]
      | cons n address => simp [at?, children_leaf h]
  | container c hc hn =>
      have ih := forall_mem_children hc hn
      refine ⟨pairwise_visits_container fun o ho => (ih o ho).ordered, fun address o => ?_⟩
      cases address with
      | nil => simp [visits_container, at?, inChild, eq_comm]
      | cons n address =>
          rw [mem_visits_cons, at?, Option.bind_eq_some_iff]
          apply exists_congr
          intro child
          apply and_congr_right
          intro hchild
          exact (ih child (List.mem_of_getElem? hchild)).complete address o

/-- What a search of the visits finds is what stands at the first address that has such a thing. -/
theorem Traversal.findSome?_eq_some_iff {o : Object} {visits : List (List Nat × Object)}
    (h : o.Traversal visits) {β : Type} {f : Object → Option β} {b : β} :
    visits.findSome? (fun visit => f visit.2) = some b ↔ ∃ address,
      (o.at? address).bind f = some b ∧ ∀ earlier < address, (o.at? earlier).bind f = none := by
  rw [List.findSome?_eq_some_iff]
  constructor
  · rintro ⟨before, ⟨address, child⟩, after, rfl, hchild, hbefore⟩
    refine ⟨address, ?_, fun earlier hlt => ?_⟩
    · rw [(h.complete address child).1 (by simp), Option.bind_some, hchild]
    · rw [Option.bind_eq_none_iff]
      intro other hother
      rcases List.mem_append.1 ((h.complete earlier other).2 hother) with hmem | hmem
      · exact hbefore _ hmem
      · -- What is visited from that address on does not stand before it.
        have hlater := (List.pairwise_append.1 h.ordered).2.1
        rcases List.mem_cons.1 hmem with heq | hmem
        · cases heq
          exact absurd hlt (List.lt_irrefl _)
        · exact absurd hlt (List.lt_asymm ((List.pairwise_cons.1 hlater).1 _ hmem))
  · rintro ⟨address, hfound, hearlier⟩
    obtain ⟨child, hchild, hb⟩ := Option.bind_eq_some_iff.1 hfound
    obtain ⟨before, after, rfl⟩ := List.append_of_mem ((h.complete address child).2 hchild)
    refine ⟨before, (address, child), after, rfl, hb, fun visit hvisit => ?_⟩
    have hlt : visit.1 < address :=
      (List.pairwise_append.1 h.ordered).2.2 visit hvisit _ List.mem_cons_self
    have hnone := hearlier visit.1 hlt
    rw [(h.complete visit.1 visit.2).1 (by simp [hvisit])] at hnone
    exact hnone

/-- The objects of a tree in the order of the visits. -/
def visited (o : Object) : List Object := o.visits.map (·.2)

theorem flatMap_zipIdx {α β : Type} (f : α → List β) (xs : List α) :
    xs.zipIdx.flatMap (fun x => f x.1) = xs.flatMap f := by
  rw [← List.flatMap_map, List.zipIdx_map_fst]

theorem visited_container (c : Container) :
    (container c).visited = container c :: c.children.flatMap visited := by
  rw [visited, visits_container, List.map_cons, List.map_flatMap, ← flatMap_zipIdx visited]
  congr 2
  funext child
  rw [List.map_map]
  rfl

end Object

end StoryCodec
