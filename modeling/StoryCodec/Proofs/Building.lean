import StoryCodec.Proofs.Depth

namespace StoryCodec.Object

/-- The objects that can be put together. Fields of containers are set at will, but named children
only come in under a key and go out by it; what was taken out of a container can be used again. -/
inductive Built : Object → Prop
  | leaf {o : Object} (h : o.container? = none) : Built o
  | empty : Built (.container .empty)
  | setName {c : Container} (name : Option String) (hc : Built (.container c)) :
      Built (.container { c with name })
  | setFlags {c : Container} (countFlags : CountFlags) (hc : Built (.container c)) :
      Built (.container { c with countFlags })
  | setContent {c : Container} (content : List Object) (hc : Built (.container c))
      (ho : ∀ o ∈ content, Built o) : Built (.container { c with content })
  | push {c : Container} {o : Object} (hc : Built (.container c)) (ho : Built o) :
      Built (.container (c.push o))
  | insertNamed {c : Container} {o : Object} (key : String) (hc : Built (.container c))
      (ho : Built o) : Built (.container (c.insertNamed key o))
  | eraseNamed {c : Container} (key : String) (hc : Built (.container c)) :
      Built (.container (c.eraseNamed key))
  | fromContent {c : Container} {o : Object} (hc : Built (.container c)) (ho : o ∈ c.content) :
      Built o
  | fromNamed {c : Container} {key : String} {o : Object} (hc : Built (.container c))
      (ho : c.getNamed? key = some o) : Built o

/-- No key is given twice, and a container under a key has it as its name. -/
def Keyed : Object → Prop
  | container c => (Fields.keys c.named).Nodup ∧
      ∀ key child, (key, container child) ∈ c.named → child.name = some key
  | _ => True

theorem keyed_leaf {o : Object} (h : o.container? = none) : o.Keyed := by
  cases o with
  | container => simp [container?] at h
  | _ => trivial

theorem Keyed.withName (c : Container) (name : Option String) (h : (container c).Keyed) :
    (container { c with name }).Keyed := h

theorem Keyed.insertNamed {c : Container} (h : (container c).Keyed) (key : String) (o : Object) :
    (container (c.insertNamed key o)).Keyed := by
  constructor
  · exact Fields.nodup_keys_insert h.1 key (o.renamed key)
  · intro k child hmem
    rcases Fields.mem_insert hmem with heq | hmem
    · cases o <;> simp only [renamed, Prod.mk.injEq, container.injEq, reduceCtorEq, and_false] at heq
      obtain ⟨rfl, rfl⟩ := heq
      rfl
    · exact h.2 k child hmem

theorem Keyed.eraseNamed {c : Container} (h : (container c).Keyed) (key : String) :
    (container (c.eraseNamed key)).Keyed := by
  constructor
  · rw [Container.eraseNamed, Fields.keys_erase]
    exact h.1.erase key
  · intro k child hmem
    exact h.2 k child (Fields.mem_erase hmem)

theorem Keyed.renamed_eq {c : Container} (h : (container c).Keyed) {e : String × Object}
    (he : e ∈ c.named) : e.2.renamed e.1 = e.2 := by
  obtain ⟨key, o⟩ := e
  cases o with
  | container child =>
      cases child
      simpa [renamed, eq_comm] using h.2 key _ he
  | _ => rfl

/-- Whatever is built keeps keys and names together at every depth. -/
theorem Built.keyed {o : Object} (h : o.Built) : o.Everywhere Keyed := by
  induction h with
  | leaf h => exact (everywhere_leaf h).2 (keyed_leaf h)
  | empty =>
      have self : Keyed (.container .empty) := ⟨List.nodup_nil, by simp [Container.empty]⟩
      exact everywhere_container.2 ⟨self, by simp [Container.empty]⟩
  | setName name _ ih => exact ih.withName Keyed.withName name
  | setFlags flags _ ih =>
      obtain ⟨self, children⟩ := everywhere_container.1 ih
      exact everywhere_container.2 ⟨self, children⟩
  | setContent content _ _ ih ihContent =>
      obtain ⟨self, -, named⟩ := everywhere_container.1 ih
      exact everywhere_container.2 ⟨self, ihContent, named⟩
  | @push c o _ _ ih iho =>
      obtain ⟨self, content, named⟩ := everywhere_container.1 ih
      refine everywhere_container.2 ⟨self, fun child hc => ?_, named⟩
      rcases List.mem_append.1 hc with hc | hc
      · exact content child hc
      · rw [List.mem_singleton.1 hc]
        exact iho
  | @insertNamed c o key _ _ ih iho =>
      obtain ⟨self, content, named⟩ := everywhere_container.1 ih
      refine everywhere_container.2 ⟨self.insertNamed key o, content, fun e he => ?_⟩
      rcases Fields.mem_insert he with rfl | he
      · exact iho.renamed Keyed.withName key
      · exact named e he
  | eraseNamed key _ ih =>
      obtain ⟨self, content, named⟩ := everywhere_container.1 ih
      refine everywhere_container.2 ⟨self.eraseNamed key, content, fun e he => ?_⟩
      exact named e (Fields.mem_erase he)
  | fromContent _ ho ih => exact (everywhere_container.1 ih).2.1 _ ho
  | fromNamed _ ho ih => exact (everywhere_container.1 ih).2.2 _ (Fields.mem_of_get? ho)

end StoryCodec.Object
