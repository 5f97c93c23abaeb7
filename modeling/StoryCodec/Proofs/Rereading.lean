import StoryCodec.Proofs.WellFormed

namespace StoryCodec

def Target.reread : Target → Target
  | path p => path p.reread
  | variableNamed name => variableNamed name

/-- What is left of a divert after it was written. One key is chosen for it, and what the key does
not say is lost. -/
def Divert.reread (d : Divert) : Divert :=
  let plain := Divert.ofTarget d.target.reread
  if d.external then plain.calling (min d.args 0x7fffffffffffffff)
  else if d.pushes then plain.pushing d.frame
  else plain

def Branch.reread (b : Branch) : Branch :=
  ⟨b.onTrue.map Divert.reread, b.onFalse.map Divert.reread⟩

def VariableReference.reread : VariableReference → VariableReference
  | named name => named name
  | readCount p => readCount p.reread

def Value.reread : Value → Value
  | target p => target p.reread
  | v => v

mutual

/-- What is left of an object after it was written: its shape, and all that a token can say. -/
def Object.reread : Object → Object
  | .container c => .container (Container.reread c)
  | .value v => .value v.reread
  | .divert d => .divert d.reread
  | .choicePoint p => .choicePoint { p with path := p.path.reread }
  | .reference r => .reference r.reread
  | .branch b => .branch b.reread
  | o => o
termination_by structural o => o

def Container.reread : Container → Container
  | ⟨name, flags, content, named⟩ => ⟨name, flags, Object.rereadList content, Object.rereadNamed named⟩
termination_by structural c => c

def Object.rereadList : List Object → List Object
  | [] => []
  | o :: os => o.reread :: Object.rereadList os
termination_by structural os => os

def Object.rereadNamed : List (String × Object) → List (String × Object)
  | [] => []
  | (key, o) :: rest => (key, o.reread) :: Object.rereadNamed rest
termination_by structural os => os

end

namespace Object

theorem rereadList_eq_map (os : List Object) : rereadList os = os.map reread := by
  induction os with
  | nil => rfl
  | cons o os ih => rw [rereadList, ih, List.map_cons]

theorem rereadNamed_eq_map (named : Fields Object) :
    rereadNamed named = named.map fun e => (e.1, e.2.reread) := by
  induction named with
  | nil => rfl
  | cons e named ih => rw [rereadNamed, ih, List.map_cons]

theorem reread_container (c : Container) : (container c).reread =
    container ⟨c.name, c.countFlags, c.content.map reread, c.named.map fun e => (e.1, e.2.reread)⟩ := by
  cases c
  rw [reread, Container.reread, rereadList_eq_map, rereadNamed_eq_map]

/-- A name that was left out is given back by the key. -/
theorem renamed_reread_unnamed (o : Object) (key : String) :
    o.unnamed.reread.renamed key = (o.renamed key).reread := by
  cases o with
  | container c => simp [unnamed, renamed, reread_container]
  | _ => rfl

end Object

theorem Target.reread_eq_self {t : Target} (h : ∀ p, t.path? = some p → p.Spelled) :
    t.reread = t := by
  cases t with
  | path p => exact congrArg Target.path (h p rfl)
  | variableNamed name => rfl

theorem Divert.reread_eq_self {d : Divert} (hp : ∀ p, d.target.path? = some p → p.Spelled)
    (h : d.Expressible) : d.reread = d := by
  obtain ⟨target, pushes, frame, external, args⟩ := d
  have ht := Target.reread_eq_self hp
  rcases h with ⟨rfl, rfl, hframe⟩ | ⟨rfl, rfl, rfl, hargs⟩
  · cases pushes with
    | true => simp_all [reread, ofTarget, pushing]
    | false => simp_all [reread, ofTarget]
  · have hmin : min args 0x7fffffffffffffff = args := if_pos hargs
    simp_all [reread, ofTarget, calling]

namespace Object

theorem reread_leaf_eq_self {o : Object} (leaf : o.container? = none) (h : o.Expressible) :
    o.reread = o := by
  have hdivert : ∀ d ∈ o.diverts, (∀ p ∈ o.diverts.filterMap fun d => d.target.path?, p.Spelled) →
      d.reread = d := by
    intro d hd hp
    refine Divert.reread_eq_self (fun p hpath => ?_) (h.diverts d hd)
    exact hp p (List.mem_filterMap.2 ⟨d, hd, hpath⟩)
  cases o with
  | container c => simp [container?] at leaf
  | value v =>
      cases v with
      | target p => exact congrArg (fun p => value (.target p)) (h.paths p (by simp [paths]))
      | _ => rfl
  | divert d => exact congrArg divert (hdivert d (by simp [diverts]) h.paths)
  | choicePoint p =>
      have hp : p.path.reread = p.path := h.paths p.path (by simp [paths])
      rw [reread, hp]
  | reference r =>
      cases r with
      | named name => rfl
      | readCount p =>
          exact congrArg (fun p => reference (.readCount p))
            (h.paths p (by simp [paths, VariableReference.path?]))
  | branch b =>
      obtain ⟨onTrue, onFalse⟩ := b
      have side (s : Option Divert) (hs : ∀ d ∈ s, d ∈ (branch ⟨onTrue, onFalse⟩).diverts) :
          s.map Divert.reread = s := by
        cases s with
        | none => rfl
        | some d => exact congrArg some (hdivert d (hs d rfl) h.paths)
      have ht := side onTrue (by intro d hd; simp_all [diverts])
      have hf := side onFalse (by intro d hd; simp_all [diverts])
      rw [reread, Branch.reread, ht, hf]
  | _ => rfl

theorem reread_eq_self {x : Object} (h : x.WellFormed) : x.reread = x := by
  induction x using tree_induction with
  | leaf o leaf => exact reread_leaf_eq_self leaf h.self
  | container c content named =>
      obtain ⟨-, hcontent, hnamed⟩ := everywhere_container.1 h
      have hc : c.content.map reread = c.content :=
        (List.map_congr_left fun o ho => content o ho (hcontent o ho)).trans (List.map_id _)
      have hn : c.named.map (fun e => (e.1, e.2.reread)) = c.named := by
        refine (List.map_congr_left fun e he => ?_).trans (List.map_id _)
        rw [named e he (hnamed e he)]
        rfl
      rw [reread_container, hc, hn]
      cases c
      rfl

end Object

end StoryCodec
