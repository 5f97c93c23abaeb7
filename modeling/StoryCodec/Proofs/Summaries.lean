import StoryCodec.Proofs.Positions
import StoryCodec.Proofs.Reformat

namespace StoryCodec

namespace Object

/-- The containers among what was visited. -/
def containers (visits : List (List Nat × Object)) : List (List Nat × Container) :=
  visits.filterMap fun visit => visit.2.container?.map (Prod.mk visit.1)

def summary (depth : Nat) : Object → List String
  | container c => c.summary depth
  | _ => []

theorem summaries_eq (depth : Nat) (os : List Object) :
    summaries depth os = os.flatMap (summary depth) := by
  induction os with
  | nil => rfl
  | cons o os ih => cases o <;> simp [summaries, summary, ih]

theorem namedSummaries_eq (depth : Nat) (es : List (String × Object)) :
    namedSummaries depth es = summaries depth (es.map (·.2)) := by
  induction es with
  | nil => rfl
  | cons e es ih =>
      obtain ⟨key, o⟩ := e
      cases o <;> simp [namedSummaries, summaries, ih]

end Object

namespace Container

theorem summary_eq (depth : Nat) (c : Container) : c.summary depth =
    c.headline depth :: c.children.flatMap (Object.summary (depth + 1)) := by
  obtain ⟨name, flags, content, named⟩ := c
  rw [summary, Object.namedSummaries_eq, Object.summaries_eq, Object.summaries_eq, children,
    List.flatMap_append]

end Container

/-- What a summary says of a container. -/
structure Headline where
  depth : Nat
  name : Option String
  content : Nat
  named : Nat
  flags : Nat

namespace Headline

def ofVisit (visit : List Nat × Container) : Headline where
  depth := visit.1.length
  name := visit.2.name
  content := visit.2.content.length
  named := visit.2.named.length
  flags := visit.2.countFlags.bits.toNat

/-- Two spaces for every level, the name or a word in its place, and the numbers. -/
def text (h : Headline) : String :=
  String.join (List.replicate h.depth "  ") ++ h.name.getD "<anonymous>" ++
    " content=" ++ toString h.content ++ " named=" ++ toString h.named ++
    " flags=" ++ toString h.flags

theorem join_indentation (depth : Nat) :
    String.join (List.replicate depth "  ") = String.ofList (List.replicate (2 * depth) ' ') := by
  induction depth with
  | zero => rfl
  | succ depth ih =>
      rw [List.replicate_succ, String.join_cons, ih, Nat.mul_succ, Nat.add_comm,
        List.replicate_add, String.ofList_append]
      rfl

theorem text_ofVisit (visit : List Nat × Container) :
    (ofVisit visit).text = visit.2.headline visit.1.length := by
  rw [text, join_indentation]
  rfl

end Headline

theorem ofList_writeInt (n : Int) : String.ofList (writeInt n) = toString n := by
  cases n with
  | ofNat n =>
      have hnot : ¬Int.ofNat n < 0 := by simp
      rw [writeInt, decide_eq_false hnot]
      rfl
  | negSucc n =>
      rw [writeInt, decide_eq_true (Int.negSucc_lt_zero n), String.ofList_append]
      rfl

namespace Object

/-- The line of a visit, if it is to a container. -/
def line (depth : Nat) (visit : List Nat × Object) : Option String :=
  visit.2.container?.map fun c => c.headline (depth + visit.1.length)

theorem line_inChild (depth n : Nat) : line depth ∘ inChild n = line (depth + 1) := by
  funext visit
  rw [Function.comp_apply, line, line, inChild, List.length_cons, Nat.add_assoc, Nat.add_comm 1]

theorem filterMap_line_visits (depth : Nat) (c : Container) :
    (container c).visits.filterMap (line depth) = c.headline depth ::
      c.children.flatMap fun o => o.visits.filterMap (line (depth + 1)) := by
  have hroot : line depth ([], container c) = some (c.headline depth) := rfl
  rw [visits_container, List.filterMap_cons_some hroot, List.filterMap_flatMap]
  simp only [List.filterMap_map, line_inChild]
  rw [flatMap_zipIdx fun o : Object => o.visits.filterMap (line (depth + 1))]

theorem summary_eq_visits (o : Object) (depth : Nat) :
    o.summary depth = o.visits.filterMap (line depth) := by
  induction o using tree_induction generalizing depth with
  | leaf o h =>
      rw [visits_leaf h]
      cases o with
      | container => simp [container?] at h
      | _ => rfl
  | container c hc hn =>
      have ih := forall_mem_children hc hn
      rw [summary, Container.summary_eq, filterMap_line_visits]
      congr 1
      exact List.flatMap_congr fun o ho => ih o ho (depth + 1)

theorem length_flatMap_visited {os : List Object}
    (h : ∀ o ∈ os, o.visited.length = (o.visited.map (·.children.length)).sum + 1) :
    (os.flatMap visited).length =
      ((os.flatMap visited).map (·.children.length)).sum + os.length := by
  induction os with
  | nil => rfl
  | cons o os ih =>
      obtain ⟨ho, hos⟩ := List.forall_mem_cons.1 h
      rw [List.flatMap_cons, List.length_append, List.map_append, List.sum_append_nat, ho, ih hos,
        List.length_cons]
      omega

/-- Each object but the root is a child of one that is visited, and of one only. -/
theorem length_visited (o : Object) :
    o.visited.length = (o.visited.map (·.children.length)).sum + 1 := by
  induction o using tree_induction with
  | leaf o h => simp [visited, visits_leaf h, children_leaf h]
  | container c hc hn =>
      have hroot : (container c).children = c.children := rfl
      have hchildren := length_flatMap_visited (forall_mem_children hc hn)
      rw [visited_container, List.length_cons, List.map_cons, List.sum_cons, hroot, hchildren]
      omega

theorem sum_headlines (visits : List (List Nat × Object)) :
    (((containers visits).map Headline.ofVisit).map fun h => h.content + h.named).sum =
      ((visits.map (·.2)).map (·.children.length)).sum := by
  induction visits with
  | nil => rfl
  | cons visit visits ih =>
      obtain ⟨address, o⟩ := visit
      cases o with
      | container c =>
          simp [containers, container?, children, Container.children, Headline.ofVisit] at ih ⊢
          omega
      | _ => simpa [containers, container?, children] using ih

end Object

namespace Story

def versionLine (version : Int64) : String := "inkVersion: " ++ toString version.toInt

/-- The lines of a summary are, after the version, those of all containers as they are passed in a
traversal. What these say they hold is all of the tree but the root. -/
structure Summarised (story : Story) (visits : List (List Nat × Object)) (headlines : List Headline)
    (lines : List String) : Prop where
  traversal : (Object.container story.root).Traversal visits
  described : headlines = (Object.containers visits).map Headline.ofVisit
  shown : lines = story.version.toList.map versionLine ++ headlines.map Headline.text
  counted : (headlines.map fun h => h.content + h.named).sum + 1 = visits.length

theorem summary_eq_headlines (story : Story) : story.summary =
    story.version.toList.map versionLine ++
      ((Object.containers (Object.container story.root).visits).map Headline.ofVisit).map
        Headline.text := by
  have hroot : story.root.summary 0 = _ := Object.summary_eq_visits (.container story.root) 0
  have hline : Object.line 0 = fun visit => (visit.2.container?.map (Prod.mk visit.1)).map
      fun visit => (Headline.ofVisit visit).text := by
    funext visit
    rw [Object.line, Option.map_map, Nat.zero_add]
    refine Option.map_congr fun c _ => ?_
    exact (Headline.text_ofVisit (visit.1, c)).symm
  rw [summary, hroot, hline, List.map_map, Object.containers, List.map_filterMap]
  congr 1
  cases story.version with
  | none => rfl
  | some version =>
      rw [Option.toList_some, List.map_singleton, versionLine, ← ofList_writeInt]

theorem exists_summarised (story : Story) :
    ∃ visits headlines, story.Summarised visits headlines story.summary := by
  refine ⟨(Object.container story.root).visits, _, Object.traversal_visits _, rfl,
    story.summary_eq_headlines, ?_⟩
  rw [Object.sum_headlines]
  exact (Object.length_visited _).symm.trans (List.length_map _)

end Story

namespace CommandLine.Request

/-- Of each source both a summary and a text are printed, or nothing at all. The summary shows the
whole tree, and the text has the same summary unless it is nested too deep to be read. -/
theorem summarise_agrees_with_reformat {format : JsonFormat} (h : format.RoundTrips) (file : String)
    (onOneLine : Bool) (read : Source → Except StoryFault String) :
    let summary := (summarise file).run format read
    let text := (reformat file onOneLine).run format read
    summary.code = text.code ∧
      (summary.code ≠ 0 → summary.output = "" ∧ text.output = "") ∧
      (summary.code = 0 ↔ ∃ input t story, read (.ofName file) = .ok input ∧
        format.read? input = some t ∧ Story.decode t = .ok story) ∧
      ∀ input t story, read (.ofName file) = .ok input → format.read? input = some t →
        Story.decode t = .ok story → ∃ visits headlines lines printed,
          story.Summarised visits headlines lines ∧
          summary.output = String.join (lines.map (· ++ "\n")) ∧
          story.encode = .ok printed ∧ text.output = format.write onOneLine printed ++ "\n" ∧
          (printed.nesting ≤ Json.maxLevels →
            ((summarise file).run format fun _ => .ok text.output) = summary) := by
  intro summary text
  cases hload : load format read file with
  | error fault =>
      have hsummary : summary = ⟨1, "", some fault⟩ := run_summarise_unloaded hload
      have htext : text = ⟨1, "", some fault⟩ := run_reformat_unloaded hload
      have hnot {input t story} (hinput : read (.ofName file) = .ok input)
          (hread : format.read? input = some t) (hdecode : Story.decode t = .ok story) : False := by
        rw [load_eq_ok.2 ⟨input, t, hinput, hread, hdecode⟩] at hload
        cases hload
      rw [hsummary, htext]
      refine ⟨rfl, fun _ => ⟨rfl, rfl⟩, iff_of_false nofun ?_, ?_⟩
      · rintro ⟨input, t, story, hinput, hread, hdecode⟩
        exact hnot hinput hread hdecode
      · exact fun input t story hinput hread hdecode => (hnot hinput hread hdecode).elim
  | ok story =>
      obtain ⟨input, t, hinput, hread, hdecode⟩ := load_eq_ok.1 hload
      obtain ⟨printed, hencode, -⟩ := Story.encode_of_decode hdecode
      obtain ⟨visits, headlines, hsummarised⟩ := story.exists_summarised
      have hsummary : summary = ⟨0, unlines story.summary, none⟩ := run_summarise hload
      have htext : text = ⟨0, format.write onOneLine printed ++ "\n", none⟩ :=
        run_reformat hload hencode
      rw [hsummary, htext]
      refine ⟨rfl, fun h => absurd rfl h, iff_of_true rfl ⟨input, t, story, hinput, hread, hdecode⟩,
        ?_⟩
      intro input' t' story' hinput' hread' hdecode'
      obtain rfl : story = story' := Except.ok.inj
        (hload.symm.trans (load_eq_ok.2 ⟨input', t', hinput', hread', hdecode'⟩))
      refine ⟨visits, headlines, _, printed, hsummarised, rfl, hencode, rfl, fun hnesting => ?_⟩
      exact run_summarise (Story.read_printed h onOneLine hdecode hencode hnesting)

theorem summarise_agrees_with_reformat_knot :
    let knot := "[2,3,4,\x7b\"side\":[5,\"^a\",\x7b\"#f\":6\x7d],\"b\":6,\"#f\":3\x7d]"
    let input := "\x7b\"root\":[0,[1,\x7b\"#n\":\"in\",\"#f\":4\x7d],\x7b\"knot\":" ++ knot ++
      ",\"#f\":5\x7d],\"inkVersion\":21\x7d"
    let output := "inkVersion: 21\n" ++
      "<anonymous> content=2 named=1 flags=5\n" ++
      "  in content=1 named=0 flags=4\n" ++
      "  knot content=3 named=2 flags=3\n" ++
      "    side content=2 named=0 flags=6\n"
    let summary := (summarise "-").run .standard fun _ => .ok input
    let text := (reformat "-" true).run .standard fun _ => .ok input
    JsonFormat.standard.RoundTrips ∧ summary.code = 0 ∧ summary.output = output ∧
      ((summarise "-").run .standard fun _ => .ok text.output) = summary := by
  intro knot input output summary text
  have h := JsonFormat.standard_faithful.toRoundTrips
  have hrun : summary.code = 0 ∧ summary.output = output ∧
      ((Story.read .standard input).toOption.bind fun story =>
        story.encode.toOption).all (·.nesting ≤ Json.maxLevels) := by decide +kernel
  obtain ⟨-, -, hloads, hagree⟩ := summarise_agrees_with_reformat h "-" true fun _ => .ok input
  obtain ⟨_, t, story, ⟨⟩, hread, hdecode⟩ := hloads.1 hrun.1
  obtain ⟨-, -, -, printed, -, -, hencode, -, hagain⟩ := hagree input t story rfl hread hdecode
  have hnesting := Story.nesting_le_of_all hrun.2.2 hread hdecode hencode
  exact ⟨h, hrun.1, hrun.2.1, hagain hnesting⟩

end CommandLine.Request

end StoryCodec
