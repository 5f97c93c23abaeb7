import StoryCodec.CommandLine.Request
import StoryCodec.Proofs.Nesting
import StoryCodec.Proofs.StandardFormat

namespace StoryCodec

namespace Story

variable {format : JsonFormat} {input : String} {story : Story} {t u : Json}

theorem read_eq_ok : read format input = .ok story ↔
    ∃ t, format.read? input = some t ∧ decode t = .ok story := by
  cases hread : format.read? input with
  | none => simp [read, hread]
  | some t => cases hdecode : decode t <;> simp [read, hread, hdecode, Except.mapError]

theorem distinct_of_decode (h : decode t = .ok story) (hu : story.encode = .ok u) : u.Distinct :=
  (readable_of_decode h hu (Nat.le_refl t.nesting)).elim (·.distinct) (·.1.distinct)

theorem nesting_le_of_all {n : Nat} (h : ((read format input).toOption.bind fun story =>
    story.encode.toOption).all (·.nesting ≤ n)) (hread : format.read? input = some t)
    (hdecode : decode t = .ok story) (hu : story.encode = .ok u) : u.nesting ≤ n := by
  simpa [read_eq_ok.2 ⟨t, hread, hdecode⟩, Except.toOption, hu] using h

/-- A story that was read is read again from the text it is written as, unless it is nested too
deep. -/
theorem read_printed (h : format.RoundTrips) (onOneLine : Bool) (hdecode : decode t = .ok story)
    (hu : story.encode = .ok u) (hnesting : u.nesting ≤ Json.maxLevels) :
    read format (format.write onOneLine u ++ "\n") = .ok story := by
  obtain ⟨u', hu', hagain⟩ := encode_of_decode hdecode
  obtain rfl : u' = u := Except.ok.inj (hu'.symm.trans hu)
  have hreadable : u'.Readable Json.maxLevels := ⟨hnesting, distinct_of_decode hdecode hu⟩
  exact read_eq_ok.2 ⟨u', h.read_printed onOneLine hreadable, hagain⟩

end Story

namespace CommandLine

namespace Request

section

variable {format : JsonFormat} {read : Source → Except StoryFault String} {file : String}
  {onOneLine : Bool} {story : Story} {fault : StoryFault}

theorem load_eq_ok : load format read file = .ok story ↔ ∃ input t,
    read (.ofName file) = .ok input ∧ format.read? input = some t ∧ Story.decode t = .ok story := by
  rw [load, bind_eq_ok]
  simp only [Story.read_eq_ok, exists_and_left]

theorem run_summarise (h : load format read file = .ok story) :
    (summarise file).run format read = ⟨0, unlines story.summary, none⟩ := by
  have hlines : (summarise file).lines format read = .ok story.summary :=
    bind_eq_ok.2 ⟨story, h, rfl⟩
  rw [run, hlines]

theorem run_summarise_unloaded (h : load format read file = .error fault) :
    (summarise file).run format read = ⟨1, "", some fault⟩ := by
  have hlines : (summarise file).lines format read = .error fault := bind_eq_error.2 (.inl h)
  rw [run, hlines]

theorem run_reformat (h : load format read file = .ok story) {u : Json}
    (hu : story.encode = .ok u) : (reformat file onOneLine).run format read =
      ⟨0, format.write onOneLine u ++ "\n", none⟩ := by
  have hwrite : story.write format onOneLine = .ok (format.write onOneLine u) := by
    rw [Story.write, hu]
  have hlines : (reformat file onOneLine).lines format read = .ok [format.write onOneLine u] :=
    bind_eq_ok.2 ⟨story, h, bind_eq_ok.2 ⟨_, hwrite, rfl⟩⟩
  rw [run, hlines]
  simp [unlines, String.join]

theorem run_reformat_unloaded (h : load format read file = .error fault) :
    (reformat file onOneLine).run format read = ⟨1, "", some fault⟩ := by
  have hlines : (reformat file onOneLine).lines format read = .error fault :=
    bind_eq_error.2 (.inl h)
  rw [run, hlines]

theorem load_text (input : String) :
    load format (fun _ => .ok input) file = Story.read format input := rfl

theorem load_of_code_eq_zero (h : ((reformat file onOneLine).run format read).code = 0) :
    ∃ story, load format read file = .ok story := by
  cases hload : load format read file with
  | error fault =>
      rw [run_reformat_unloaded hload] at h
      cases h
  | ok story => exact ⟨story, rfl⟩

end

/-- A text that was printed is printed again as it is, unless it is nested too deep to be read. It
is only where the input was an array alone, nested as deep as can be read. -/
theorem reformat_again {format : JsonFormat} (faithful : format.Faithful) {file input : String}
    {onOneLine : Bool}
    (hcode : ((reformat file onOneLine).run format fun _ => .ok input).code = 0) :
    let first := (reformat file onOneLine).run format fun _ => .ok input
    let again := (reformat file onOneLine).run format fun _ => .ok first.output
    ∃ t story printed, format.read? input = some t ∧ Story.decode t = .ok story ∧
      story.encode = .ok printed ∧ first.output = format.write onOneLine printed ++ "\n" ∧
      (printed.nesting ≤ Json.maxLevels → again = first) ∧
      (Json.maxLevels < printed.nesting → again = ⟨1, "", some .notJson⟩ ∧
        printed.nesting = Json.maxLevels + 1 ∧ t.nesting = Json.maxLevels ∧
          ∃ items, t = .arr items) := by
  intro first again
  obtain ⟨story, hload⟩ := load_of_code_eq_zero hcode
  obtain ⟨_, t, ⟨⟩, hread, hdecode⟩ := load_eq_ok.1 hload
  obtain ⟨printed, hencode, -⟩ := Story.encode_of_decode hdecode
  have hfirst : first = ⟨0, format.write onOneLine printed ++ "\n", none⟩ :=
    run_reformat hload hencode
  have houtput : first.output = format.write onOneLine printed ++ "\n" := by rw [hfirst]
  refine ⟨t, story, printed, hread, hdecode, hencode, houtput, fun hnesting => ?_, fun hdeep => ?_⟩
  · have hagain : load format (fun _ => .ok first.output) file = .ok story := by
      rw [load_text, houtput]
      exact Story.read_printed faithful.toRoundTrips onOneLine hdecode hencode hnesting
    exact (run_reformat hagain hencode).trans hfirst.symm
  · have hdistinct := Story.distinct_of_decode hdecode hencode
    have hagain : load format (fun _ => .ok first.output) file = .error .notJson := by
      rw [load_text, houtput, Story.read, faithful.refuses_printed onOneLine hdistinct hdeep]
    have hlevels := (faithful.readable hread).nesting
    refine ⟨run_reformat_unloaded hagain, ?_⟩
    rcases Story.readable_of_decode hdecode hencode (Nat.le_refl t.nesting) with
      hwritten | ⟨hwritten, items, rfl⟩
    · exact absurd (Nat.le_trans hwritten.nesting hlevels) (Nat.not_le_of_lt hdeep)
    · have hnesting := hwritten.nesting
      exact ⟨by omega, by omega, items, rfl⟩

/-- A numeral in quotes and a name that the key says are not there any more in what is printed. -/
theorem reformat_again_knot :
    let request := reformat "-" true
    let input := "\x7b\"root\":[\"^a\",\x7b\"knot\":[\"12\",\x7b\"#f\":1,\"#n\":\"knot\"\x7d]," ++
      "\"#f\":5\x7d],\"inkVersion\":21\x7d"
    let output := "\x7b\"inkVersion\":21,\"root\":[\"^a\",\x7b\"knot\":[12,\x7b\"#f\":1\x7d]," ++
      "\"#f\":5\x7d]\x7d\n"
    let first := request.run .standard fun _ => .ok input
    JsonFormat.standard.Faithful ∧ first.code = 0 ∧ first.output = output ∧
      (request.run .standard fun _ => .ok output) = first := by
  intro request input output first
  have faithful := JsonFormat.standard_faithful
  have hrun : first.code = 0 ∧ first.output = output ∧
      ((Story.read .standard input).toOption.bind fun story =>
        story.encode.toOption).all (·.nesting ≤ Json.maxLevels) := by decide +kernel
  obtain ⟨t, story, printed, hread, hdecode, hencode, -, hagain, -⟩ := reformat_again faithful hrun.1
  have hnesting := Story.nesting_le_of_all hrun.2.2 hread hdecode hencode
  have hsecond : (request.run .standard fun _ => .ok first.output) = first := hagain hnesting
  rw [hrun.2.1] at hsecond
  exact ⟨faithful, hrun.1, hrun.2.1, hsecond⟩

/-- The items of arrays one in the other. -/
def nested : Nat → List Json
  | 0 => []
  | n + 1 => [.arr (nested n)]

def nestedContainer : Nat → Container
  | 0 => .ofContent []
  | n + 1 => .ofContent [.container (nestedContainer n)]

/-- What nested arrays are written as: each is given the end that containers have. -/
def nestedEnded : Nat → List Json
  | 0 => [.null]
  | n + 1 => [.arr (nestedEnded n), .null]

theorem nesting_nested (n : Nat) : (Json.arr (nested n)).nesting = n + 1 := by
  induction n with
  | zero => rfl
  | succ n ih =>
      rw [nested, Json.nesting, Json.itemsNesting, ih]
      simp [Json.itemsNesting]

theorem nesting_nestedEnded (n : Nat) : (Json.arr (nestedEnded n)).nesting = n + 1 := by
  induction n with
  | zero => rfl
  | succ n ih =>
      rw [nestedEnded, Json.nesting, Json.itemsNesting, ih]
      simp [Json.itemsNesting, Json.nesting]

theorem distinct_nested (n : Nat) : (Json.arr (nested n)).Distinct := by
  induction n with
  | zero => exact Json.distinct_arr (by simp [nested])
  | succ n ih => exact Json.distinct_arr (by simpa [nested] using ih)

theorem writeValue_nested (n depth : Nat) : Json.writeValue .compact depth (.arr (nested n)) =
    List.replicate (n + 1) '[' ++ List.replicate (n + 1) ']' := by
  induction n generalizing depth with
  | zero => rfl
  | succ n ih =>
      have hopen : List.replicate (n + 2) '[' = '[' :: List.replicate (n + 1) '[' :=
        List.replicate_succ
      have hclose : List.replicate (n + 2) ']' = List.replicate (n + 1) ']' ++ [']'] :=
        List.replicate_succ'
      rw [hopen, hclose, nested, Json.writeValue, ih, Json.writeItems]
      simp only [Json.Layout.compact, List.nil_append, List.append_nil, List.cons_append,
        List.append_assoc]

theorem decode_nested (n : Nat) : Container.decode (nested n) = .ok (nestedContainer n) := by
  induction n with
  | zero => rfl
  | succ n ih =>
      rw [nested, Container.decode,
        Decoding.parts_singleton (t := .arr (nested n)) (by simp) (by simp),
        Object.decodeRequired, Object.decode_arr, ih]
      rfl

theorem encode_nestedContainer (n : Nat) :
    (nestedContainer n).encode = .ok (.arr (nestedEnded n)) := by
  induction n with
  | zero => rfl
  | succ n ih =>
      change (Object.container (.ofContent [.container (nestedContainer n)])).encode = _
      refine Container.encode_eq_ok.2 ⟨[.arr (nestedEnded n)], [], ?_, rfl, rfl⟩
      exact mapM_cons_eq_ok.2 ⟨_, [], ih, rfl, rfl⟩

/-- Put under a key, arrays as deep as can be read are too deep to be read again. -/
theorem reformat_deepest :
    let request := reformat "-" true
    let input := String.ofList (List.replicate 127 '[' ++ List.replicate 127 ']')
    JsonFormat.standard.Faithful ∧
      ∃ output, request.run .standard (fun _ => .ok input) = ⟨0, output, none⟩ ∧
        request.run .standard (fun _ => .ok output) = ⟨1, "", some .notJson⟩ := by
  intro request input
  have faithful := JsonFormat.standard_faithful
  have hread : JsonFormat.standard.read? input = some (.arr (nested 126)) := by
    have htext : input = JsonFormat.standard.write true (.arr (nested 126)) := by
      rw [JsonFormat.write, if_pos rfl]
      exact congrArg String.ofList (writeValue_nested 126 0).symm
    have hnesting : (Json.arr (nested 126)).nesting ≤ Json.maxLevels := by
      rw [nesting_nested]
      exact Nat.le_refl 127
    rw [htext]
    exact faithful.read_write true ⟨hnesting, distinct_nested 126⟩
  have hdecode : Story.decode (.arr (nested 126)) = .ok ⟨none, nestedContainer 126⟩ := by
    rw [Story.decode, decode_nested]
    rfl
  have hencode : Story.encode ⟨none, nestedContainer 126⟩ =
      .ok (.obj [("root", .arr (nestedEnded 126))]) := by
    rw [Story.encode, encode_nestedContainer]
    rfl
  have hdeep : (Json.obj [("root", .arr (nestedEnded 126))]).nesting = 128 := by
    rw [Json.nesting, Json.fieldsNesting, nesting_nestedEnded]
    rfl
  have hunread := faithful.refuses_printed true (Story.distinct_of_decode hdecode hencode)
    (hdeep ▸ Nat.lt_succ_self 127)
  have hload : load .standard (fun _ => .ok input) "-" = .ok ⟨none, nestedContainer 126⟩ :=
    load_eq_ok.2 ⟨input, _, rfl, hread, hdecode⟩
  refine ⟨faithful, _, run_reformat hload hencode, run_reformat_unloaded ?_⟩
  rw [load_text, Story.read, hunread]

end Request

end CommandLine

end StoryCodec
