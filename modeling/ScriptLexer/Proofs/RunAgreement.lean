import ScriptLexer.Command.Run
import ScriptLexer.Proofs.LabelPassages
import ScriptLexer.Proofs.WindowBounds

namespace ScriptLexer

theorem toString_injective {m n : Nat} (h : toString m = toString n) : m = n := by
  have hl := congrArg String.toList h
  rw [Nat.toString_eq_repr, Nat.toString_eq_repr, Nat.toList_repr, Nat.toList_repr] at hl
  rw [← Nat.ofDigitChars_ten_toDigits (n := m), hl, Nat.ofDigitChars_ten_toDigits]

theorem isDigit_of_mem_toString {n : Nat} {c : Char} (h : c ∈ (toString n).toList) : c.isDigit := by
  rw [Nat.toString_eq_repr, Nat.toList_repr] at h
  exact Nat.isDigit_of_mem_toDigits (by decide) (by decide) h

namespace Issue

theorem code_injective {i j : Issue} (hi : i ∈ all) (hj : j ∈ all) (h : i.code = j.code) :
    i = j := by
  have hcode := ofCode?_code hi
  rw [h, ofCode?_code hj] at hcode
  exact (Option.some.inj hcode).symm

theorem length_code : ∀ i ∈ all, (toString i.code).toList.length = 4 := by
  decide

theorem message_front : ∀ i ∈ all, ∀ j ∈ all,
    i.message.toList.take 14 = j.message.toList.take 14 → i = j := by
  decide

theorem length_message : ∀ i ∈ all, 14 ≤ i.message.toList.length := by
  decide

theorem message_line : ∀ i ∈ all, '\n' ∉ i.message.toList := by
  decide

end Issue

namespace Command

def headed (heading : String) (lines : List String) : List String :=
  lines.filter fun line => heading.toList.isPrefixOf line.toList

def helpLine (issue : Issue) (line : Nat) : String :=
  "  help: R" ++ toString issue.code ++ " reported at line " ++ toString line

def noticeLine (issue : Issue) (line : Nat) : String :=
  "Syntax Error: " ++ issue.message ++ " at line " ++ toString line

theorem toList_append_congr {a b c d a' b' c' d' : String}
    (h : a ++ b ++ c ++ d = a' ++ b' ++ c' ++ d') :
    a.toList ++ (b.toList ++ (c.toList ++ d.toList)) =
      a'.toList ++ (b'.toList ++ (c'.toList ++ d'.toList)) := by
  have hl := congrArg String.toList h
  simpa only [String.toList_append, List.append_assoc] using hl

theorem helpLine_injective {i j : Issue} (hi : i ∈ Issue.all) (hj : j ∈ Issue.all) {m n : Nat}
    (h : helpLine i m = helpLine j n) : i = j ∧ m = n := by
  have hcode := List.append_cancel_left (toList_append_congr h)
  obtain ⟨hc, hline⟩ :=
    List.append_inj hcode ((Issue.length_code i hi).trans (Issue.length_code j hj).symm)
  refine ⟨Issue.code_injective hi hj (toString_injective (String.toList_inj.mp hc)), ?_⟩
  exact toString_injective (String.toList_inj.mp (List.append_cancel_left hline))

theorem noticeLine_injective {i j : Issue} (hi : i ∈ Issue.all) (hj : j ∈ Issue.all) {m n : Nat}
    (h : noticeLine i m = noticeLine j n) : i = j ∧ m = n := by
  have hmessage := List.append_cancel_left (toList_append_congr h)
  have hfront := congrArg (List.take 14) hmessage
  rw [List.take_append_of_le_length (Issue.length_message i hi),
    List.take_append_of_le_length (Issue.length_message j hj)] at hfront
  obtain rfl := Issue.message_front i hi j hj hfront
  have hline := List.append_cancel_left (List.append_cancel_left hmessage)
  exact ⟨rfl, toString_injective (String.toList_inj.mp hline)⟩

theorem headed_cons_of_prefix {heading line : String} (h : heading.toList <+: line.toList)
    (lines : List String) : headed heading (line :: lines) = line :: headed heading lines :=
  List.filter_cons_of_pos (List.isPrefixOf_iff_prefix.mpr h)

theorem headed_cons_of_third {heading line : String} {c : Char} (hc : heading.toList[2]? = some c)
    (h : line.toList[2]? ≠ some c) (lines : List String) :
    headed heading (line :: lines) = headed heading lines := by
  refine List.filter_cons_of_neg fun hp => h ?_
  obtain ⟨tail, ht⟩ := List.isPrefixOf_iff_prefix.mp hp
  rw [← ht, List.getElem?_append_left (List.getElem?_eq_some_iff.mp hc).1, hc]

theorem headed_append (heading : String) (u v : List String) :
    headed heading (u ++ v) = headed heading u ++ headed heading v :=
  List.filter_append u v

end Command

namespace Report

/-- Each text of the report is one line, and the help fits on one of 80 columns with its heading. -/
structure Lined (r : Report) : Prop where
  name : '\n' ∉ r.window.name.toList
  message : '\n' ∉ r.message.toList
  help : '\n' ∉ r.help.toList
  help_length : r.help.length ≤ 72

end Report

open Command (headed helpLine headed_cons_of_prefix headed_cons_of_third headed_append)

/-- What a run needs of its renderer. It draws each report whose label can be read, with the help on
a line of its own if that is short, and it draws every error. -/
structure Renderer.Reliable (render : Renderer) : Prop where
  report_drawn : ∀ r, (∀ label ∈ r.label, r.window.Readable label) →
    ∃ lines, render.report r = some lines
  help_line : ∀ r lines, render.report r = some lines → r.Lined →
    headed Report.helpHeading lines = [Report.helpHeading ++ r.help]
  error_drawn : ∀ chain, ∃ lines, render.error chain = some lines

namespace Report

theorem third_append {p : String} (line : String) (h : 2 < p.toList.length) :
    (p ++ line).toList[2]? = p.toList[2]? := by
  rw [String.toList_append, List.getElem?_append_left h]

theorem headed_bars (lines : List String) : headed helpHeading (lines.map ("   │ " ++ ·)) = [] := by
  induction lines with
  | nil => rfl
  | cons line lines ih =>
    rw [List.map_cons, headed_cons_of_third (c := 'h') (by decide) _, ih]
    rw [third_append _ (by decide)]
    decide

theorem headed_snippet {w : Window} {label : Span} {lines : List String}
    (h : snippet? w label = some lines) : headed helpHeading lines = [] := by
  have hh : helpHeading.toList[2]? = some 'h' := by decide
  rw [snippet?] at h
  split at h
  · obtain ⟨shown, -, rfl⟩ := Option.map_eq_some_iff.mp h
    rw [headed_append, headed_append, headed_bars, headed_cons_of_third hh]
    · rfl
    · rw [String.append_assoc, String.append_assoc, String.append_assoc,
        third_append _ (by decide)]
      decide
  · cases h

theorem snippet?_of_readable {w : Window} {label : Span} (h : w.Readable label) :
    ∃ lines, snippet? w label = some lines := by
  obtain ⟨around, haround, -, -, htext⟩ := h 1 1
  obtain ⟨alone, halone, -⟩ := h 0 0
  obtain ⟨shown, hshown⟩ := htext.exists_ofString
  rw [snippet?, haround, halone]
  dsimp only
  rw [hshown, Bytes.toString?_ofString, Option.map_some]
  exact ⟨_, rfl⟩

theorem headed_lines? {r : Report} {lines : List String} (h : r.lines? = some lines) :
    headed helpHeading lines = [helpHeading ++ r.help] := by
  obtain ⟨snippet, hs, rfl⟩ := Option.map_eq_some_iff.mp h
  have hsnippet : headed helpHeading snippet = [] := by
    cases hl : r.label with
    | none =>
      rw [hl] at hs
      obtain rfl := Option.some.inj hs
      rfl
    | some label =>
      rw [hl] at hs
      exact headed_snippet hs
  have hh : helpHeading.toList[2]? = some 'h' := by decide
  rw [headed_append, headed_append, hsnippet, headed_cons_of_third hh (by decide),
    headed_cons_of_third hh (by decide), headed_cons_of_third hh, headed_cons_of_prefix]
  · rfl
  · rw [String.toList_append]
    exact List.prefix_append _ _
  · rw [third_append _ (by decide)]
    decide

end Report

theorem Renderer.boxed_reliable : Renderer.boxed.Reliable := by
  constructor
  · intro r h
    cases hl : r.label with
    | none =>
      simp only [boxed, Report.lines?, hl, Option.elim_none, Option.map_some]
      exact ⟨_, rfl⟩
    | some label =>
      obtain ⟨lines, hlines⟩ := Report.snippet?_of_readable (h label hl)
      simp only [boxed, Report.lines?, hl, Option.elim_some, hlines, Option.map_some]
      exact ⟨_, rfl⟩
  · intro r lines h _
    exact Report.headed_lines? h
  · intro chain
    cases chain with
    | nil => exact ⟨_, rfl⟩
    | cons message causes => exact ⟨_, rfl⟩

namespace Window

theorem name_around? {name : String} {text : Text} {index : LineIndex} {label : Span} {w : Window}
    (h : around? name text index label = some w) : w.name = name := by
  obtain ⟨stop, -, hw⟩ := Option.bind_eq_some_iff.mp h
  obtain ⟨contents, -, hw⟩ := Option.bind_eq_some_iff.mp hw
  rw [← Option.some.inj hw]

end Window

theorem issue_and_line_of_scan {s : String} (hs : s.utf8ByteSize ≤ Document.maxOffset)
    {d : Diagnostic} (hd : d ∈ (scan (Bytes.ofString s)).diagnostics) :
    d.issue ∈ Issue.all ∧ (toString d.line).length ≤ 10 := by
  obtain ⟨step, hm, he⟩ := (Scan.mem_diagnostics_iff _ d).mp hd
  obtain ⟨k, rfl⟩ := Cursor.exists_of_mem_steps hm
  refine ⟨Cursor.issue_next he, ?_⟩
  obtain ⟨span, -, hline⟩ :=
    (@Cursor.StandsIn.located_next _ s.toUTF8 (Cursor.standsIn_ofString s k)).diagnostic_line d he
  have hle := Text.lineAt_le s.toUTF8 span.stop
  have hcount := List.count_le_length (a := Byte.lineFeed) (l := Text.bytes s.toUTF8)
  have hsize : s.toUTF8.size ≤ Document.maxOffset := hs
  rw [Text.length_bytes] at hcount
  rw [LineIndex.lineOf_eq_lineAt] at hline
  have hmax : Document.maxOffset = 4294967295 := by decide
  rw [Nat.toString_eq_repr]
  exact Nat.repr_length _ _ (by decide) (by omega)

namespace Report

theorem help_line_eq (d : Diagnostic) : helpHeading ++
    ("R" ++ toString d.issue.code ++ " reported at line " ++ toString d.line) =
      helpLine d.issue d.line := by
  have hh : helpHeading ++ "R" = "  help: R" := rfl
  rw [helpLine, ← hh, String.append_assoc, String.append_assoc, String.append_assoc,
    String.append_assoc, String.append_assoc]

theorem lined_of? {name : String} {text : Text} {index : LineIndex} {d : Diagnostic} {r : Report}
    (h : of? name text index d = some r) (hname : '\n' ∉ name.toList) (hi : d.issue ∈ Issue.all)
    (hl : (toString d.line).length ≤ 10) : r.Lined := by
  obtain ⟨w, hw, rfl⟩ := Option.map_eq_some_iff.mp h
  have hcode := Issue.length_code _ hi
  rw [String.length_toList] at hcode
  constructor
  · rwa [Window.name_around? hw]
  · exact Issue.message_line _ hi
  · have hdigits (n : Nat) : '\n' ∉ (toString n).toList := by
      intro hm
      exact absurd (isDigit_of_mem_toString hm) (by decide)
    simp only [String.toList_append, List.mem_append, hdigits, or_false]
    decide
  · have hone : "R".length = 1 := rfl
    have hmiddle : " reported at line ".length = 18 := rfl
    simp only [String.length_append]
    omega

theorem exists_drawn {render : Renderer} (hr : render.Reliable) (path : String) {s : String}
    (hs : s.utf8ByteSize ≤ Document.maxOffset) {d : Diagnostic}
    (hd : d ∈ (scan (Bytes.ofString s)).diagnostics) :
    ∃ r lines, of? path s.toUTF8 (LineIndex.ofText s.toUTF8) d = some r ∧
      render.report r = some lines ∧
      ('\n' ∉ path.toList → headed helpHeading lines = [helpLine d.issue d.line]) := by
  obtain ⟨span, hspan, hstart, hstop, hpos⟩ := span_of_scan hd
  obtain ⟨r, hof, hlabel⟩ := exists_of? path hspan hstart
  have hreadable : ∀ label ∈ r.label, r.window.Readable label := by
    intro label hm
    obtain ⟨hw, hl⟩ := of?_cases hof
    rw [focus_of_label (hl ▸ hm)] at hw
    obtain rfl := Option.some.inj (hlabel.symm.trans hm)
    apply Window.readable_label hw hstart
    rcases labelOf_of_isBoundary hstop with he | hle
    · rwa [he]
    · omega
  obtain ⟨lines, hlines⟩ := hr.report_drawn r hreadable
  refine ⟨r, lines, hof, hlines, fun hname => ?_⟩
  obtain ⟨hissue, hline⟩ := issue_and_line_of_scan hs hd
  rw [hr.help_line r lines hlines (lined_of? hof hname hissue hline)]
  obtain ⟨w, -, rfl⟩ := Option.map_eq_some_iff.mp hof
  rw [help_line_eq]

end Report

namespace Command

/-- What runs on a file with the text `s` have in common: `run` takes whether JSON and whether
reports are asked for. Help lines can be told from other lines unless the name of the file breaks
one. -/
structure RunsAgree (run : Bool → Bool → Outcome) (file s : String) : Prop where
  exit_eq : ∀ json pretty, (run json pretty).exit = 0
  output_eq : ∀ json pretty, (run json pretty).output =
    if json then
      Listing.json (LineIndex.ofText s.toUTF8) (ScriptLexer.scan (Bytes.ofString s)).tokens
    else Listing.plain (ScriptLexer.scan (Bytes.ofString s)).tokens
  notices_eq : ∀ json, (run json false).errors =
    (ScriptLexer.scan (Bytes.ofString s)).diagnostics.map fun d => noticeLine d.issue d.line
  helps_eq : '\n' ∉ file.toList → ∀ json, headed "  help: " (run json true).errors =
    (ScriptLexer.scan (Bytes.ofString s)).diagnostics.map fun d => helpLine d.issue d.line
  matched : '\n' ∉ file.toList → ∀ (json json' : Bool) (k : Nat), ∀ issue ∈ Issue.all,
    ∀ line, (headed "  help: " (run json true).errors)[k]? = some (helpLine issue line) ↔
      (run json' false).errors[k]? = some (noticeLine issue line)

structure Refuses (render : Renderer) (e : LoadError) (o : Outcome) : Prop where
  exit_eq : o.exit = 1
  output_eq : o.output = []
  errors_eq : ∃ drawn, render.error e.chain = some drawn ∧ o.errors = refuse drawn

theorem notice_eq (d : Diagnostic) : d.notice = noticeLine d.issue d.line := by
  have h : Diagnostic.heading ++ ": " = "Syntax Error: " := by decide
  exact congrArg (fun front => front ++ d.issue.message ++ " at line " ++ toString d.line) h

theorem getElem?_map_iff {ds : List Diagnostic} {f : Issue → Nat → String} {issue : Issue}
    {line : Nat} (hf : ∀ d ∈ ds, f d.issue d.line = f issue line → d.issue = issue ∧ d.line = line)
    (k : Nat) :
    (ds.map fun d => f d.issue d.line)[k]? = some (f issue line) ↔
      ∃ d, ds[k]? = some d ∧ d.issue = issue ∧ d.line = line := by
  rw [List.getElem?_map, Option.map_eq_some_iff]
  constructor
  · rintro ⟨d, hd, he⟩
    exact ⟨d, hd, hf d (List.mem_of_getElem? hd) he⟩
  · rintro ⟨d, hd, rfl, rfl⟩
    exact ⟨d, hd, rfl⟩

theorem drawOnto_eq {draw : Diagnostic → Option (List String)} {drawn : Diagnostic → List String}
    {ds : List Diagnostic} (h : ∀ d ∈ ds, draw d = some (drawn d)) (done : List (List String)) :
    drawOnto draw done ds = (true, done.reverse.flatten ++ ds.flatMap drawn) := by
  induction ds generalizing done with
  | nil => rw [drawOnto, List.flatMap_nil, List.append_nil]
  | cons d ds ih =>
    obtain ⟨hd, hds⟩ := List.forall_mem_cons.mp h
    rw [drawOnto, hd]
    dsimp only
    rw [ih hds, List.reverse_cons, List.flatten_concat, List.flatMap_cons, List.append_assoc]

section

variable {render : Renderer} {entry : String → Entry} {file s : String}

theorem complaints_pretty (hr : render.Reliable) (path : String)
    (hs : s.utf8ByteSize ≤ Document.maxOffset) (terminal : Bool) :
    ∃ lines, complaints render (Document.ofString path s) true terminal
        (ScriptLexer.scan (Bytes.ofString s)).diagnostics = (true, lines) ∧
      ('\n' ∉ path.toList → headed "  help: " lines =
        (ScriptLexer.scan (Bytes.ofString s)).diagnostics.map fun d =>
          helpLine d.issue d.line) := by
  let draw (d : Diagnostic) : Option (List String) :=
    (Report.of? path s.toUTF8 (LineIndex.ofText s.toUTF8) d).bind render.report
  have hdraw : ∀ d ∈ (ScriptLexer.scan (Bytes.ofString s)).diagnostics,
      draw d = some ((draw d).getD []) ∧
        ('\n' ∉ path.toList →
          headed "  help: " ((draw d).getD []) = [helpLine d.issue d.line]) := by
    intro d hd
    obtain ⟨r, lines, hof, hlines, hhelp⟩ := Report.exists_drawn hr path hs hd
    have hd : draw d = some lines := by
      simp only [draw, hof, Option.bind_some, hlines]
    rw [hd]
    exact ⟨rfl, hhelp⟩
  refine ⟨_, drawOnto_eq (fun d hd => (hdraw d hd).1) [], fun hname => ?_⟩
  rw [List.reverse_nil, List.flatten_nil, List.nil_append, headed, List.filter_flatMap,
    ← List.flatMap_singleton' (List.map _ _), List.flatMap_map]
  exact List.flatMap_congr fun d hd => (hdraw d hd).2 hname

theorem run_of_text (h : entry file = .file s.toUTF8) (hs : s.utf8ByteSize ≤ Document.maxOffset)
    (json pretty terminal : Bool) : run render entry terminal (.scan file json pretty) =
      scanDocument render (Document.ofString file s) json pretty terminal := by
  rw [run, h, Document.load_ofString file s hs]

def listed (path s : String) (json : Bool) : Bytes :=
  listing (Document.ofString path s) json (ScriptLexer.scan (Bytes.ofString s)).tokens

theorem run_plain (h : entry file = .file s.toUTF8) (hs : s.utf8ByteSize ≤ Document.maxOffset)
    (json : Bool) : run render entry false (.scan file json false) =
      .success (listed file s json)
        ((ScriptLexer.scan (Bytes.ofString s)).diagnostics.map fun d =>
          noticeLine d.issue d.line) := by
  rw [run_of_text h hs]
  simp only [← notice_eq]
  rfl

theorem run_pretty (hr : render.Reliable) (h : entry file = .file s.toUTF8)
    (hs : s.utf8ByteSize ≤ Document.maxOffset) (json : Bool) :
    ∃ errors, run render entry false (.scan file json true) =
        .success (listed file s json) errors ∧
      ('\n' ∉ file.toList → headed "  help: " errors =
        (ScriptLexer.scan (Bytes.ofString s)).diagnostics.map fun d =>
          helpLine d.issue d.line) := by
  obtain ⟨errors, he, hhelp⟩ := complaints_pretty hr file hs false
  refine ⟨errors, ?_, hhelp⟩
  have hb : (Document.ofString file s).text.bytes = Bytes.ofString s := rfl
  rw [run_of_text h hs]
  simp only [scanDocument, hb, he]
  rfl

theorem runs_agree (hr : render.Reliable) (h : entry file = .file s.toUTF8)
    (hs : s.utf8ByteSize ≤ Document.maxOffset) :
    RunsAgree (fun json pretty => run render entry false (.scan file json pretty)) file s := by
  have hsuccess (json pretty : Bool) : ∃ errors,
      run render entry false (.scan file json pretty) = .success (listed file s json) errors := by
    cases pretty with
    | false => exact ⟨_, run_plain h hs json⟩
    | true => exact (run_pretty hr h hs json).imp fun _ he => he.1
  have hnotices (json : Bool) : (run render entry false (.scan file json false)).errors =
      (ScriptLexer.scan (Bytes.ofString s)).diagnostics.map
        fun d => noticeLine d.issue d.line := by
    rw [run_plain h hs]
    rfl
  have hhelps (hname : '\n' ∉ file.toList) (json : Bool) :
      headed "  help: " (run render entry false (.scan file json true)).errors =
        (ScriptLexer.scan (Bytes.ofString s)).diagnostics.map
          fun d => helpLine d.issue d.line := by
    obtain ⟨errors, he, hhelp⟩ := run_pretty hr h hs json
    rw [he]
    exact hhelp hname
  refine ⟨?_, ?_, hnotices, hhelps, ?_⟩
  · intro json pretty
    obtain ⟨errors, he⟩ := hsuccess json pretty
    rw [he]
    rfl
  · intro json pretty
    obtain ⟨errors, he⟩ := hsuccess json pretty
    rw [he]
    rfl
  · intro hname json json' k issue hissue line
    rw [hhelps hname, hnotices,
      getElem?_map_iff fun d hd => helpLine_injective (issue_and_line_of_scan hs hd).1 hissue,
      getElem?_map_iff fun d hd => noticeLine_injective (issue_and_line_of_scan hs hd).1 hissue]

theorem load_of_not_valid {bytes : ByteArray} (h : ¬ bytes.IsValidUTF8) (path : String) :
    ∃ e, Document.load path (.file bytes) = .error e := by
  rw [Document.load, dif_neg h]
  split <;> exact ⟨_, rfl⟩

theorem run_refuses (hr : render.Reliable) {e : LoadError}
    (h : Document.load file (entry file) = .error e) (json pretty terminal : Bool) :
    Refuses render e (run render entry terminal (.scan file json pretty)) := by
  obtain ⟨drawn, hdrawn⟩ := hr.error_drawn e.chain
  rw [run, h]
  dsimp only
  rw [hdrawn]
  exact ⟨rfl, rfl, drawn, hdrawn, rfl⟩

end

end Command

end ScriptLexer
