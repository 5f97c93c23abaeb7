import StoryCodec.Proofs.Decoded
import StoryCodec.Wire.Document
import Mathlib.Logic.Relation

namespace StoryCodec.Editing

open Object (Built Within decode_built)

/-- One operation on the objects at hand, which acts on those in front. What is in a container comes
to hand when its content is replaced or a child is removed, so that it can be changed there and put
back, or put elsewhere. -/
inductive Step : List Object → List Object → Prop
  | arrange {os ps} (h : os.Perm ps) : Step os ps
  | drop (o os) : Step (o :: os) os
  | copy (o os) : Step (o :: os) (o :: o :: os)
  | leaf {o : Object} (os) (h : o.container? = none) : Step os (o :: os)
  | new (os) : Step os (.container .empty :: os)
  | named (name : String) (os) :
      Step os (.container { Container.empty with name := some name } :: os)
  | withContent (content os) : Step (content ++ os) (.container (.ofContent content) :: os)
  | setName (c : Container) (name : Option String) (os) :
      Step (.container c :: os) (.container { c with name } :: os)
  | setFlags (c : Container) (countFlags : CountFlags) (os) :
      Step (.container c :: os) (.container { c with countFlags } :: os)
  | setContent (c : Container) (content os) :
      Step (.container c :: (content ++ os)) (.container { c with content } :: (c.content ++ os))
  | push (c : Container) (o os) : Step (.container c :: o :: os) (.container (c.push o) :: os)
  | insertNamed (c : Container) (key : String) (o os) :
      Step (.container c :: o :: os) (.container (c.insertNamed key o) :: os)
  | copyNamed (c : Container) (key : String) (os) :
      Step (.container c :: os) (.container c :: ((c.getNamed? key).toList ++ os))
  | removeNamed (c : Container) (key : String) (os) :
      Step (.container c :: os)
        (.container (c.eraseNamed key) :: ((c.getNamed? key).toList ++ os))
  | decodeToken {token : Json} {o? : Option Object} (os) (h : Object.decode token = .ok o?) :
      Step os (o?.toList ++ os)
  | decodeContainer {items : List Json} {c : Container} (os) (h : Container.decode items = .ok c) :
      Step os (.container c :: os)
  | decodeList {items : List Json} {content : List Object} (os)
      (h : decodeList items = .ok content) : Step os (content ++ os)
  | decodeMap {fields : Fields Json} {children : Fields Object} (os)
      (h : decodeMap fields = .ok children) : Step os (children.map (·.2) ++ os)
  | decodeStory {token : Json} {story : Story} (os) (h : Story.decode token = .ok story) :
      Step os (.container story.root :: os)

abbrev Run : List Object → List Object → Prop := Relation.ReflTransGen Step

theorem built_of_decode {items : List Json} {c : Container} (h : Container.decode items = .ok c) :
    Built (.container c) := by
  apply decode_built
  rw [Object.decode_arr, h]
  rfl

theorem built_of_decodeList {items : List Json} {content : List Object}
    (h : decodeList items = .ok content) : ∀ o ∈ content, o.Built := by
  intro o ho
  obtain ⟨token, -, hdecode⟩ := exists_of_mem_mapM h ho
  exact decode_built (Object.decodeRequired_eq_ok.1 hdecode)

theorem built_of_decodeMap {fields : Fields Json} {children : Fields Object}
    (h : decodeMap fields = .ok children) : ∀ e ∈ children, e.2.Built := by
  intro e he
  obtain ⟨entry, -, hentry⟩ := exists_of_mem_mapM h he
  obtain ⟨o, ho, rfl⟩ := map_eq_ok.1 hentry
  exact decode_built (Object.decodeRequired_eq_ok.1 ho)

theorem built_of_decodeStory {token : Json} {story : Story} (h : Story.decode token = .ok story) :
    Built (.container story.root) := by
  cases token with
  | arr items =>
      obtain ⟨root, hroot, heq⟩ := bind_eq_ok.1 h
      cases heq
      exact built_of_decode hroot
  | obj fields =>
      rw [Story.decode] at h
      split at h
      next items _ =>
        obtain ⟨version, -, h⟩ := bind_eq_ok.1 h
        obtain ⟨root, hroot, heq⟩ := bind_eq_ok.1 h
        cases heq
        exact built_of_decode hroot
      next => cases h
  | _ => cases h

theorem Step.built {os ps : List Object} (h : Step os ps) (hos : ∀ o ∈ os, o.Built) :
    ∀ o ∈ ps, o.Built := by
  cases h with
  | arrange h => exact fun o ho => hos o (h.mem_iff.2 ho)
  | drop o => exact (List.forall_mem_cons.1 hos).2
  | copy o => exact List.forall_mem_cons.2 ⟨hos o List.mem_cons_self, hos⟩
  | leaf _ h => exact List.forall_mem_cons.2 ⟨.leaf h, hos⟩
  | new => exact List.forall_mem_cons.2 ⟨.empty, hos⟩
  | named name => exact List.forall_mem_cons.2 ⟨.setName (some name) .empty, hos⟩
  | withContent content =>
      obtain ⟨hcontent, hos⟩ := List.forall_mem_append.1 hos
      exact List.forall_mem_cons.2 ⟨.setContent content .empty hcontent, hos⟩
  | setName c name =>
      obtain ⟨hc, hos⟩ := List.forall_mem_cons.1 hos
      exact List.forall_mem_cons.2 ⟨.setName name hc, hos⟩
  | setFlags c flags =>
      obtain ⟨hc, hos⟩ := List.forall_mem_cons.1 hos
      exact List.forall_mem_cons.2 ⟨.setFlags flags hc, hos⟩
  | setContent c content =>
      obtain ⟨hc, hos⟩ := List.forall_mem_cons.1 hos
      obtain ⟨hcontent, hos⟩ := List.forall_mem_append.1 hos
      refine List.forall_mem_cons.2 ⟨.setContent content hc hcontent, ?_⟩
      exact List.forall_mem_append.2 ⟨fun o ho => .fromContent hc ho, hos⟩
  | push c o =>
      obtain ⟨hc, hos⟩ := List.forall_mem_cons.1 hos
      obtain ⟨ho, hos⟩ := List.forall_mem_cons.1 hos
      exact List.forall_mem_cons.2 ⟨.push hc ho, hos⟩
  | insertNamed c key o =>
      obtain ⟨hc, hos⟩ := List.forall_mem_cons.1 hos
      obtain ⟨ho, hos⟩ := List.forall_mem_cons.1 hos
      exact List.forall_mem_cons.2 ⟨.insertNamed key hc ho, hos⟩
  | copyNamed c key =>
      obtain ⟨hc, hos⟩ := List.forall_mem_cons.1 hos
      refine List.forall_mem_cons.2 ⟨hc, List.forall_mem_append.2 ⟨fun o ho => ?_, hos⟩⟩
      exact .fromNamed hc (Option.mem_toList.1 ho)
  | removeNamed c key =>
      obtain ⟨hc, hos⟩ := List.forall_mem_cons.1 hos
      refine List.forall_mem_cons.2 ⟨.eraseNamed key hc, List.forall_mem_append.2 ⟨fun o ho => ?_, hos⟩⟩
      exact .fromNamed hc (Option.mem_toList.1 ho)
  | decodeToken _ h =>
      refine List.forall_mem_append.2 ⟨fun o ho => ?_, hos⟩
      obtain rfl := Option.mem_toList.1 ho
      exact decode_built h
  | decodeContainer _ h => exact List.forall_mem_cons.2 ⟨built_of_decode h, hos⟩
  | decodeList _ h => exact List.forall_mem_append.2 ⟨built_of_decodeList h, hos⟩
  | decodeMap _ h =>
      exact List.forall_mem_append.2 ⟨List.forall_mem_map.2 (built_of_decodeMap h), hos⟩
  | decodeStory _ h => exact List.forall_mem_cons.2 ⟨built_of_decodeStory h, hos⟩

theorem Run.built {os ps : List Object} (h : Run os ps) (hos : ∀ o ∈ os, o.Built) :
    ∀ o ∈ ps, o.Built := by
  induction h with
  | refl => exact hos
  | tail _ hstep ih => exact hstep.built ih

/-- However containers were made, changed and put into each other, those at hand and those in them
have each key once, and under a key only containers of that name. -/
theorem named_of_run {os : List Object} (h : Run [] os) {x : Object} (hx : x ∈ os) {c : Container}
    (hc : Within (.container c) x) :
    (Fields.keys c.named).Nodup ∧
      ∀ key child, (key, .container child) ∈ c.named → child.name = some key :=
  (h.built (by simp) x hx).keyed (.container c) hc

/-- A child that is read under one key is taken out, renamed, put under another key of a new
container, and stands there beside the container that it came from. -/
theorem named_of_run_moved :
    let bare : Container := ⟨none, ⟨0⟩, [], []⟩
    let moved : Container :=
      ⟨none, ⟨0⟩, [.container bare], [("t", .container { bare with name := some "t" })]⟩
    let outer : Container := { bare with content := [.container moved] }
    Run [] [.container outer] ∧ .container outer ∈ [Object.container outer] ∧
      Within (.container moved) (.container outer) ∧ (Fields.keys moved.named).Nodup ∧
      ∀ key child, (key, .container child) ∈ moved.named → child.name = some key := by
  intro bare moved outer
  let child : Container := { bare with name := some "s" }
  let parent : Container := { bare with named := [("s", .container child)] }
  let holder : Container := { moved with content := [] }
  have hrun : Run [] [.container outer] := by
    have hdecode : Object.decode (.arr [.obj [("s", .arr [.obj [("#n", .str "stale")]])]]) =
        .ok (some (.container parent)) := by rfl
    calc Run [] [.container parent] := .single (.decodeToken [] hdecode)
      Step _ [.container bare, .container child] := .removeNamed parent "s" []
      Step _ [.container child, .container bare] := .arrange (.swap _ _ [])
      Step _ [.container { child with name := some "x" }, .container bare] := .setName child _ _
      Step _ [.container bare, .container { child with name := some "x" }, .container bare] := .new _
      Step _ [.container holder, .container bare] := .insertNamed bare "t" _ _
      Step _ [.container moved] := .push holder _ []
      Step _ [.container outer] := .withContent [.container moved] []
  have hmem : .container outer ∈ [Object.container outer] := List.mem_singleton_self _
  have hwithin : Within (.container moved) (.container outer) :=
    .content (List.mem_singleton_self _) .here
  exact ⟨hrun, hmem, hwithin, named_of_run hrun hmem hwithin⟩

end StoryCodec.Editing
