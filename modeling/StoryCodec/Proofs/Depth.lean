import StoryCodec.Story.Object

namespace StoryCodec.Object

/-- An object stands in itself, and what stands in a child of a container stands in the container. -/
inductive Within (o : Object) : Object → Prop
  | here : Within o o
  | content {c : Container} {child : Object} (hc : child ∈ c.content) (h : Within o child) :
      Within o (.container c)
  | named {c : Container} {entry : String × Object} (he : entry ∈ c.named)
      (h : Within o entry.2) : Within o (.container c)

def Everywhere (P : Object → Prop) (x : Object) : Prop :=
  ∀ o, Within o x → P o

/-- The object without its name if it is a container, as it is written where a key gives the name. -/
def unnamed : Object → Object
  | container c => container { c with name := none }
  | o => o

theorem unnamed_leaf {o : Object} (h : o.container? = none) : o.unnamed = o := by
  cases o <;> simp_all [container?, unnamed]

theorem unnamed_unnamed (o : Object) : o.unnamed.unnamed = o.unnamed := by
  cases o <;> rfl

theorem unnamed_renamed (o : Object) (key : String) : (o.renamed key).unnamed = o.unnamed := by
  cases o <;> rfl

theorem renamed_renamed (o : Object) (key : String) : (o.renamed key).renamed key = o.renamed key := by
  cases o <;> rfl

theorem tree_induction {P : Object → Prop} (leaf : ∀ o, o.container? = none → P o)
    (container : ∀ c : Container, (∀ o ∈ c.content, P o) → (∀ e ∈ c.named, P e.2) → P (.container c))
    (o : Object) : P o := by
  refine @Object.rec P (fun c => P (.container c)) (fun os => ∀ o ∈ os, P o)
    (fun es => ∀ e ∈ es, P e.2) (fun e => P e.2)
    (fun _ h => h) ?_ ?_ ?_ ?_ ?_ ?_ ?_ ?_ ?_ ?_ ?_
    (fun _ _ content named hc hn => container ⟨_, _, content, named⟩ hc hn)
    (by simp) (fun _ _ ho hos => List.forall_mem_cons.2 ⟨ho, hos⟩)
    (by simp) (fun _ _ he hes => List.forall_mem_cons.2 ⟨he, hes⟩) (fun _ _ h => h) o
  all_goals intros; exact leaf _ rfl

/-- Induction over the tree of an object. A named child comes with and without its name, because it
is written without. -/
@[elab_as_elim]
theorem children_induction {P : Object → Prop} (leaf : ∀ o, o.container? = none → P o)
    (container : ∀ c : Container, (∀ o ∈ c.content, P o) →
      (∀ e ∈ c.named, P e.2 ∧ P e.2.unnamed) → P (.container c)) (o : Object) : P o := by
  suffices h : P o ∧ P o.unnamed from h.1
  induction o using tree_induction with
  | leaf o h => exact ⟨leaf o h, (unnamed_leaf h).symm ▸ leaf o h⟩
  | container c content named =>
      have hc : ∀ o ∈ c.content, P o := fun o ho => (content o ho).1
      exact ⟨container c hc named, container { c with name := none } hc named⟩

variable {P Q : Object → Prop}

theorem Everywhere.self {x : Object} (h : x.Everywhere P) : P x := h x .here

theorem Everywhere.mono (hPQ : ∀ o, P o → Q o) {x : Object} (h : x.Everywhere P) :
    x.Everywhere Q :=
  fun o ho => hPQ o (h o ho)

theorem everywhere_leaf {x : Object} (h : x.container? = none) : x.Everywhere P ↔ P x := by
  refine ⟨Everywhere.self, fun hP o ho => ?_⟩
  cases ho with
  | here => exact hP
  | content | named => simp [container?] at h

theorem everywhere_container {c : Container} : (container c).Everywhere P ↔
    P (container c) ∧ (∀ o ∈ c.content, o.Everywhere P) ∧ ∀ e ∈ c.named, e.2.Everywhere P := by
  refine ⟨fun h => ⟨h.self, ?_, ?_⟩, ?_⟩
  · exact fun child hc o ho => h o (.content hc ho)
  · exact fun e he o ho => h o (.named he ho)
  · rintro ⟨self, content, named⟩ o ho
    cases ho with
    | here => exact self
    | content hc ho => exact content _ hc o ho
    | named he ho => exact named _ he o ho

/-- A property that does not look at the name of a container stays when the name is changed. -/
theorem Everywhere.withName (hP : ∀ (c : Container) (name : Option String), P (.container c) →
      P (.container { c with name })) {c : Container} (h : (container c).Everywhere P)
    (name : Option String) : (container { c with name }).Everywhere P := by
  obtain ⟨self, children⟩ := everywhere_container.1 h
  exact everywhere_container.2 ⟨hP c name self, children⟩

theorem Everywhere.unnamed (hP : ∀ (c : Container) (name : Option String), P (.container c) →
      P (.container { c with name })) {x : Object} (h : x.Everywhere P) :
    x.unnamed.Everywhere P := by
  cases x with
  | container c => exact h.withName hP none
  | _ => exact h

theorem Everywhere.renamed (hP : ∀ (c : Container) (name : Option String), P (.container c) →
      P (.container { c with name })) {x : Object} (h : x.Everywhere P) (key : String) :
    (x.renamed key).Everywhere P := by
  cases x with
  | container c => exact h.withName hP (some key)
  | _ => exact h

end StoryCodec.Object
