import Mathlib.Order.Bounds.Defs
import NeutronLang.Proofs.DeepTrees
import NeutronLang.Proofs.PrintedLines

/-!
# Reports on several files

The report of a command line says of each file what it would say of that file alone. What is printed
is put together in the order of the files. The status is kept while one file after the other is
looked at: it settles on 2, and on 1 only where it was 0; but so it becomes the greatest status of
the files (`statusAfter_eq_max`), which does not depend on their order.
-/

namespace NeutronLang.CommandLine

open Text

/-! ## Files by themselves -/

/-- `readDocument` gives a tree for every text that `tokenize` cuts into tokens. -/
theorem exists_reading_iff {text : List Char} :
    (∃ reading, readDocument text = .ok reading) ↔ ∃ tokens, tokenize text = .ok tokens := by
  constructor
  · rintro ⟨reading, hreading⟩
    obtain ⟨tokens, htokens, -⟩ := Rendering.exists_course hreading
    exact ⟨tokens, htokens⟩
  · rintro ⟨tokens, htokens⟩
    obtain ⟨reading, hreading, -⟩ := exists_reading htokens
    exact ⟨reading, hreading⟩

/-- The `Settings` that the options amount to. -/
def Options.settings (options : Options) : Settings :=
  ⟨options.enabled, options.maxProblems, options.nested⟩

/-- How many diagnostics a file has by `validate`: none if it has no text. -/
def diagnosticCount (options : Options) (path : String) (contents : Contents) : Nat :=
  match textOf contents with
  | .error _ => 0
  | .ok text => (validate path text options.settings).diagnostics.length

/-- Whether a text has a tree that `encoder` gives up on. -/
def isTooDeep (encoder : Encoder) (path : String) (text : List Char) : Bool :=
  match readDocument text with
  | .error _ => false
  | .ok reading => !encoder (treeJson path reading.program)

/-- The status of a file: 2 if it cannot be read, 1 if there is something wrong with its text. That
is a diagnostic or, where trees are printed, that the text cannot be cut into tokens or that its
tree is too deep for the encoder (`isTooDeep`). -/
def statusOf (options : Options) (path : String) (contents : Contents) (encoder : Encoder) : Nat :=
  match textOf contents with
  | .error _ => 2
  | .ok text =>
    if options.dumpTree then
      if (tokenize text).isOk && !isTooDeep encoder path text then 0 else 1
    else if (validate path text options.settings).diagnostics.isEmpty then 0 else 1

/-- Whether a file can be read. -/
def isReadable (contents : Contents) : Bool := (textOf contents).isOk

/-- The options for the file at `path` alone, which are otherwise the same. -/
def Options.only (options : Options) (path : String) : Options := { options with files := [path] }

variable {options : Options} {contents : String → Contents} {encoder : Encoder}

/-- `treeReport` has status 0 if there is a tree for the encoder to print, else 1. -/
theorem status_treeReport (path : String) (text : List Char) (encoder : Encoder) :
    (treeReport path text encoder).status =
      if (tokenize text).isOk && !isTooDeep encoder path text then 0 else 1 := by
  unfold treeReport
  cases htokens : tokenize text with
  | ok tokens =>
    obtain ⟨reading, hreading⟩ := exists_reading_iff.mpr ⟨tokens, htokens⟩
    have hdeep : isTooDeep encoder path text = !encoder (treeJson path reading.program) := by
      rw [isTooDeep, hreading]
    rw [hdeep, hreading]
    dsimp only
    cases encoder (treeJson path reading.program) <;> rfl
  | error fault =>
    cases hreading : readDocument text with
    | error fault => rfl
    | ok reading =>
      obtain ⟨tokens, hok⟩ := exists_reading_iff.mp ⟨reading, hreading⟩
      cases htokens.symm.trans hok

/-- `fileReport` has the status that `statusOf` tells. -/
theorem status_fileReport (options : Options) (path : String) (contents : Contents)
    (encoder : Encoder) :
    (fileReport options path contents encoder).status =
      statusOf options path contents encoder := by
  unfold fileReport statusOf
  cases textOf contents with
  | error fault => rfl
  | ok text =>
    dsimp only
    split
    · exact status_treeReport path text encoder
    · rfl

/-- `statusOf` is at most 2. -/
theorem statusOf_le (options : Options) (path : String) (contents : Contents)
    (encoder : Encoder) : statusOf options path contents encoder ≤ 2 := by
  unfold statusOf
  repeat' split
  all_goals omega

/-! ## Files of a command line -/

/-- `turnOn` leaves the files of a draft alone. -/
theorem Draft.files_of_turnOn {draft after : Draft} {flag : Flag}
    (h : draft.turnOn flag = .ok after) : after.files = draft.files := by
  cases flag <;> cases h <;> rfl

/-- `assign` leaves the files of a draft alone. -/
theorem Draft.files_of_assign {draft after : Draft} {flag : Flag} {value : String}
    (h : draft.assign flag value = .ok after) : after.files = draft.files := by
  unfold assign at h
  repeat' split at h
  all_goals first
    | cases h
      rfl
    | cases h

/-- `takeRun` never leaves an empty list of files. -/
theorem Draft.files_takeRun {draft : Draft} (h : draft.files ≠ some []) (run : List Word) :
    (draft.takeRun run).files ≠ some [] := by
  unfold takeRun
  dsimp only
  split
  · next hsome =>
    intro hnil
    rw [Option.some.inj hnil] at hsome
    simp at hsome
  · exact h

/-- `read` after a step takes the files from the words behind it, if the step leaves those of the
draft alone. -/
theorem files_of_read_bind {step : Except Exit Draft} {draft after : Draft} {rest : List Word}
    (h : (do read (← step) rest) = .ok after) (hdraft : draft.files ≠ some [])
    (hfiles : ∀ middle, step = .ok middle → middle.files = draft.files)
    (ih : ∀ middle, read middle rest = .ok after → middle.files ≠ some [] →
      after.files ≠ some []) : after.files ≠ some [] := by
  cases hstep : step with
  | error exit =>
    rw [hstep] at h
    cases h
  | ok middle =>
    rw [hstep] at h
    apply ih middle h
    rw [hfiles middle hstep]
    exact hdraft

/-- `read` never ends up with an empty list of files. -/
theorem files_of_read {draft after : Draft} {words : List Word} (h : read draft words = .ok after)
    (hdraft : draft.files ≠ some []) : after.files ≠ some [] := by
  fun_induction read draft words with
  | case1 draft =>
    cases h
    exact hdraft
  | case2 draft flag hvalue value rest ih | case5 draft flag value rest ih =>
    -- a flag with a value of its own, or in the same word
    exact files_of_read_bind h hdraft (fun _ => Draft.files_of_assign) ih
  | case4 draft flag rest hvalue ih =>
    exact files_of_read_bind h hdraft (fun _ => Draft.files_of_turnOn) ih
  | case3 | case7 => cases h
  | case6 draft letters rest hletters ih | case8 draft rest ih => exact ih h hdraft
  | case9 draft word rest _ _ _ _ ih => exact ih h (Draft.files_takeRun hdraft _)

/-- `ofWords` accepts no command line without files. -/
theorem files_ne_nil_of_ofWords {command : List String}
    (h : Options.ofWords command = .ok options) : options.files ≠ [] := by
  unfold Options.ofWords at h
  cases hread : read .standard (words command) with
  | error exit =>
    rw [hread] at h
    cases h
  | ok draft =>
    have hfiles := files_of_read hread (by decide)
    rw [hread] at h
    simp only [bind, Except.bind] at h
    repeat' split at h
    all_goals cases h
    next files hsome _ _ _ _ _ =>
      intro hnil
      exact hfiles (hnil ▸ hsome)

/-! ## Statuses of several files -/

namespace Report

/-- `statusAfter` is the maximum of the two. -/
theorem statusAfter_eq_max {before file : Nat} (h : before ≤ 2) (hfile : file ≤ 2) :
    statusAfter before file = max before file := by
  unfold statusAfter
  repeat' split
  all_goals omega

/-- The status after several reports is no less than any of theirs, and it is one of them unless it
was there before. -/
theorem status_foldl {reports : List Report} (h : ∀ report ∈ reports, report.status ≤ 2) :
    ∀ before : Report, before.status ≤ 2 →
      before.status ≤ (reports.foldl append before).status ∧
        (∀ report ∈ reports, report.status ≤ (reports.foldl append before).status) ∧
        ((reports.foldl append before).status = before.status ∨
          ∃ report ∈ reports, report.status = (reports.foldl append before).status) := by
  induction reports with
  | nil => exact fun before _ => ⟨Nat.le_refl _, by simp, .inl rfl⟩
  | cons first reports ih =>
    intro before hbefore
    obtain ⟨hfirst, hreports⟩ := List.forall_mem_cons.mp h
    have hstatus : (before.append first).status = max before.status first.status :=
      statusAfter_eq_max hbefore hfirst
    obtain ⟨hle, hall, hmem⟩ := ih hreports (before.append first) (by omega)
    rw [List.foldl_cons]
    refine ⟨by omega, List.forall_mem_cons.mpr ⟨by omega, hall⟩, ?_⟩
    rcases hmem with hmem | ⟨report, hreport, hmem⟩
    · -- it was there before the other reports, so before the first one or with it
      rcases Nat.le_total first.status before.status with hmax | hmax
      · exact .inl (by omega)
      · exact .inr ⟨first, List.mem_cons_self, by omega⟩
    · exact .inr ⟨report, List.mem_cons_of_mem _ hreport, hmem⟩

/-- `append` puts together what several reports print. -/
theorem output_foldl (reports : List Report) : ∀ before : Report,
    (reports.foldl append before).output = before.output ++ reports.flatMap Report.output := by
  induction reports with
  | nil => simp
  | cons first reports ih =>
    intro before
    rw [List.foldl_cons, ih, List.flatMap_cons, ← List.append_assoc]
    rfl

/-- `stdout` has as many lines as items, if each item is one line. -/
theorem hasLines_stdout {report : Report} (h : ∀ line ∈ report.output, isOneLine line = true) :
    HasLines report.stdout report.output.length := ⟨report.output, rfl, rfl, h⟩

end Report

/-- The `report` of a command line prints what `fileReport` prints on each file. -/
theorem output_report (options : Options) (contents : String → Contents) (encoder : Encoder) :
    (report options contents encoder).output =
      options.files.flatMap fun path =>
        (fileReport options path (contents path) encoder).output := by
  show (List.foldl Report.append _ _).output ++ [] = _
  rw [Report.output_foldl, List.flatMap_map]
  simp [Report.empty]

/-- The `report` of a command line has the status of the reports on its files: its last words do not
change that. -/
theorem status_report (options : Options) (contents : String → Contents) (encoder : Encoder) :
    (report options contents encoder).status =
      ((options.files.map fun path => fileReport options path (contents path) encoder).foldl
        Report.append .empty).status := by
  show Report.statusAfter _ _ = _
  unfold closing Report.statusAfter
  dsimp only
  repeat' split
  all_goals omega

/-- The status of a `report` on files is the greatest of theirs. -/
theorem isGreatest_status (options : Options) (contents : String → Contents) (encoder : Encoder)
    (h : options.files ≠ []) :
    IsGreatest
      {status | ∃ path ∈ options.files, statusOf options path (contents path) encoder = status}
      (report options contents encoder).status := by
  rw [status_report]
  set reports := options.files.map fun path => fileReport options path (contents path) encoder
  have hstatus : ∀ report ∈ reports, report.status ≤ 2 := by
    intro report hreport
    obtain ⟨path, -, rfl⟩ := List.mem_map.mp hreport
    rw [status_fileReport]
    exact statusOf_le options path (contents path) encoder
  obtain ⟨-, hall, hmem⟩ := Report.status_foldl hstatus .empty (by decide)
  -- the status of the whole is a bound by induction over the files, and it is reached by one of
  -- them
  have hupper : ∀ path ∈ options.files,
      statusOf options path (contents path) encoder ≤
        (reports.foldl Report.append .empty).status := by
    intro path hpath
    rw [← status_fileReport]
    exact hall _ (List.mem_map_of_mem hpath)
  constructor
  · rcases hmem with hmem | ⟨report, hreport, hmem⟩
    · -- where the status is 0, so is that of every file
      obtain ⟨path, hpath⟩ := List.exists_mem_of_ne_nil _ h
      have hle := hupper path hpath
      rw [hmem] at hle ⊢
      exact ⟨path, hpath, Nat.le_zero.mp hle⟩
    · obtain ⟨path, hpath, rfl⟩ := List.mem_map.mp hreport
      rw [status_fileReport] at hmem
      exact ⟨path, hpath, hmem⟩
  · rintro _ ⟨path, hpath, rfl⟩
    exact hupper path hpath

/-- The status of a `report` does not depend on the order of the files. -/
theorem status_report_perm {files : List String} (h : files.Perm options.files) :
    (report { options with files := files } contents encoder).status =
      (report options contents encoder).status := by
  cases hfiles : options.files with
  | nil =>
    rw [hfiles] at h
    obtain rfl := h.eq_nil
    rw [← hfiles]
  | cons path rest =>
    have hne : options.files ≠ [] := by simp [hfiles]
    have hne' : files ≠ [] := fun hnil => hne (hnil ▸ h).symm.eq_nil
    have hgreatest := isGreatest_status { options with files := files } contents encoder hne'
    simp only [h.mem_iff] at hgreatest
    exact hgreatest.unique (isGreatest_status options contents encoder hne)

/-! ## What is printed -/

/-- The `report` on several files prints what it would print on each of them alone. -/
theorem stdout_report (options : Options) (contents : String → Contents) (encoder : Encoder) :
    (report options contents encoder).stdout =
      String.join (options.files.map fun path =>
        (report (options.only path) contents encoder).stdout) := by
  have honly (path : String) : (report (options.only path) contents encoder).output =
      (fileReport options path (contents path) encoder).output := by
    rw [output_report, Options.only, List.flatMap_singleton]
    rfl
  unfold Report.stdout
  simp only [honly]
  rw [output_report]
  induction options.files with
  | nil => rfl
  | cons path files ih =>
    rw [List.flatMap_cons, List.map_append, String.join_append, ih, List.map_cons, String.join_cons]

/-- `fileReport` prints nothing on a file that cannot be read. -/
theorem output_fileReport_unreadable {path : String} {contents : Contents}
    (h : isReadable contents = false) : (fileReport options path contents encoder).output = [] := by
  unfold isReadable at h
  unfold fileReport
  cases htext : textOf contents with
  | error fault => rfl
  | ok text =>
    rw [htext] at h
    cases h

/-- `fileReport` prints one item with JSON on each file that can be read, and it is on one line. -/
theorem output_fileReport_json (htree : options.dumpTree = false) (hjson : options.json = true)
    (path : String) (contents : Contents) (encoder : Encoder) :
    (fileReport options path contents encoder).output.length =
        (if isReadable contents then 1 else 0) ∧
      ∀ line ∈ (fileReport options path contents encoder).output, isOneLine line = true := by
  unfold isReadable fileReport
  cases textOf contents with
  | error fault => exact ⟨rfl, fun _ hline => nomatch hline⟩
  | ok text =>
    simp only [htree, Bool.false_eq_true, if_false, diagnosticReport, hjson, if_true]
    exact ⟨rfl, List.forall_mem_singleton.mpr (Json.isOneLine_line _)⟩

/-- `fileReport` prints one item in words for each diagnostic, on one line if the path is. -/
theorem output_fileReport_words (htree : options.dumpTree = false) (hjson : options.json = false)
    {path : String} (hpath : isOneLine path = true) (contents : Contents) :
    (fileReport options path contents encoder).output.length =
        diagnosticCount options path contents ∧
      ∀ line ∈ (fileReport options path contents encoder).output, isOneLine line = true := by
  unfold diagnosticCount fileReport
  cases textOf contents with
  | error fault => exact ⟨rfl, fun _ hline => nomatch hline⟩
  | ok text =>
    simp only [htree, Bool.false_eq_true, if_false, diagnosticReport, hjson, List.length_map,
      List.mem_map]
    refine ⟨rfl, ?_⟩
    rintro _ ⟨diagnostic, hdiagnostic, rfl⟩
    exact Diagnostic.isOneLine_inFile hdiagnostic hpath

/-- The `report` of items in one line each has as many lines as its files together. -/
theorem hasLines_report {count : String → Nat}
    (h : ∀ path ∈ options.files,
      (fileReport options path (contents path) encoder).output.length = count path ∧
        ∀ line ∈ (fileReport options path (contents path) encoder).output, isOneLine line = true) :
    HasLines (report options contents encoder).stdout (options.files.map count).sum := by
  have hlength :
      (report options contents encoder).output.length = (options.files.map count).sum := by
    rw [output_report, List.length_flatMap]
    exact congrArg List.sum (List.map_congr_left fun path hpath => (h path hpath).1)
  rw [← hlength]
  refine Report.hasLines_stdout fun line hline => ?_
  rw [output_report] at hline
  obtain ⟨path, hpath, hline⟩ := List.mem_flatMap.mp hline
  exact (h path hpath).2 line hline

/-- A sum that counts 1 for some files is the number of these files. -/
theorem sum_map_ite (p : String → Bool) (files : List String) :
    (files.map fun path => if p path then 1 else 0).sum = files.countP p := by
  induction files with
  | nil => rfl
  | cons path files ih => simp [List.countP_cons, ih, Nat.add_comm]

/-- `fileReport` prints nothing where trees are printed, on a file whose `statusOf` is not 0. -/
theorem output_fileReport_tree {path : String} {contents : Contents}
    (htree : options.dumpTree = true) (h : statusOf options path contents encoder ≠ 0) :
    (fileReport options path contents encoder).output = [] := by
  rw [← status_fileReport] at h
  unfold fileReport at h ⊢
  cases htext : textOf contents with
  | error fault => rfl
  | ok text =>
    simp only [htext, htree, if_true] at h ⊢
    unfold treeReport at h ⊢
    cases hreading : readDocument text with
    | error fault => rfl
    | ok reading =>
      rw [hreading] at h
      dsimp only at h ⊢
      -- the status is 0 if the encoder takes the tree, and only then is it printed
      split at h
      · exact absurd rfl h
      · next hencoder => rw [if_neg hencoder]

/-- The `report` on a file alone prints nothing if `fileReport` prints nothing on the file. -/
theorem stdout_only {path : String}
    (h : (fileReport options path (contents path) encoder).output = []) :
    (report (options.only path) contents encoder).stdout = "" := by
  have houtput : (report (options.only path) contents encoder).output = [] := by
    rw [output_report, Options.only, List.flatMap_singleton]
    exact h
  unfold Report.stdout
  rw [houtput]
  rfl

/-! ## Trees that are too deep -/

/-- A file that holds `sumText n` can be read. -/
theorem textOf_sumText (n : Nat) :
    textOf (.ok (asciiBytes (Rendering.sumText n))) = .ok (Rendering.sumText n) := by
  have hascii := Rendering.ascii_sumText n
  unfold textOf
  simp only [bind, Except.bind, decodeUtf8_asciiBytes fun c hc => (hascii c hc).1]
  rw [unifyNewlines_eq fun hmem => (hascii _ hmem).2 rfl]
  rfl

/-- The tree of `sumText n` is too deep for each encoder that is allowed no more than `n` calls. -/
theorem isTooDeep_sumText {limit n : Nat} (h : limit ≤ n) (path : String) :
    isTooDeep (.upTo limit) path (Rendering.sumText n) = true := by
  obtain ⟨reading, hreading, -, hdepth⟩ := Rendering.exists_reading_sumText n
  have hle : reading.program.json.depth ≤ (treeJson path reading.program).depth := by
    have hmember : ("ast", reading.program.json) ∈
        [("file", Json.text path), ("ast", reading.program.json)] :=
      List.mem_cons_of_mem _ List.mem_cons_self
    have hdepth := Json.depth_le_depthOfMembers hmember
    rw [treeJson, Json.depth]
    omega
  rw [isTooDeep, hreading]
  simp only [Encoder.upTo, Bool.not_eq_true', decide_eq_false_iff_not]
  omega

/-- The options of a command line that asks for the tree of one file. -/
def dumping : Options := ⟨["deep.nt"], true, false, 1000, false, true, false⟩

/-- Every file holds `sumText n`. -/
def holdingSum (n : Nat) : String → Contents := fun _ => .ok (asciiBytes (Rendering.sumText n))

/-- No limit is enough for the trees of all files: `sumText n` can be cut into tokens and has status
0 for an encoder that never gives up, but 1 for each that is allowed no more than `n` calls. -/
theorem report_sumText {limit n : Nat} (h : limit ≤ n) :
    (tokenize (Rendering.sumText n)).isOk ∧
      statusOf dumping "deep.nt" (holdingSum n "deep.nt") (fun _ => true) = 0 ∧
      (report dumping (holdingSum n) (.upTo limit)).status = 1 ∧
      (report dumping (holdingSum n) (.upTo limit)).stdout = "" := by
  obtain ⟨reading, hreading, -, -⟩ := Rendering.exists_reading_sumText n
  obtain ⟨tokens, htokens⟩ := exists_reading_iff.mp ⟨reading, hreading⟩
  have htree : dumping.dumpTree = true := rfl
  have htext : textOf (holdingSum n "deep.nt") = .ok (Rendering.sumText n) := textOf_sumText n
  have hok : (tokenize (Rendering.sumText n)).isOk = true := by
    rw [htokens]
    rfl
  have hstatus : statusOf dumping "deep.nt" (holdingSum n "deep.nt") (.upTo limit) = 1 := by
    simp [statusOf, htext, htree, isTooDeep_sumText h]
  refine ⟨hok, ?_, ?_, ?_⟩
  · have hdeep : isTooDeep (fun _ => true) "deep.nt" (Rendering.sumText n) = false := by
      rw [isTooDeep, hreading]
      rfl
    simp [statusOf, htext, htree, hdeep, hok]
  · obtain ⟨⟨path, hpath, hgreatest⟩, -⟩ :=
      isGreatest_status dumping (holdingSum n) (.upTo limit) (by decide)
    obtain rfl := List.mem_singleton.mp hpath
    rw [← hgreatest, hstatus]
  · have houtput :
        (fileReport dumping "deep.nt" (holdingSum n "deep.nt") (.upTo limit)).output = [] :=
      output_fileReport_tree htree (hstatus ▸ Nat.one_ne_zero)
    exact stdout_only houtput

/-! ## Reports -/

/-- A `report` looks at the files one by one, and what it prints is exact to the line. -/
structure ReportsByFile (options : Options) (contents : String → Contents) (encoder : Encoder) :
    Prop where
  /-- A command line that is accepted has files. -/
  files : ∀ command, Options.ofWords command = .ok options → options.files ≠ []
  /-- The status is the greatest of those of the files, which `statusOf` tells for each of them. -/
  status : options.files ≠ [] →
    IsGreatest
      {status | ∃ path ∈ options.files, statusOf options path (contents path) encoder = status}
      (report options contents encoder).status
  /-- The order of the files makes no difference to the status. -/
  order : ∀ files : List String, files.Perm options.files →
    (report { options with files := files } contents encoder).status =
      (report options contents encoder).status
  /-- What is printed is, in the order of the files, what would be printed on each of them alone. -/
  printed : (report options contents encoder).stdout =
    String.join (options.files.map fun path =>
      (report (options.only path) contents encoder).stdout)
  /-- On a file that cannot be read nothing is printed. -/
  unreadable : ∀ path, isReadable (contents path) = false →
    (report (options.only path) contents encoder).stdout = ""
  /-- Where trees are printed, nothing is printed on a file whose status is not 0. -/
  refused : options.dumpTree = true → ∀ path,
    statusOf options path (contents path) encoder ≠ 0 →
      (report (options.only path) contents encoder).stdout = ""
  /-- JSON takes one line for each file that can be read. -/
  json : options.dumpTree = false → options.json = true →
    HasLines (report options contents encoder).stdout
      (options.files.countP fun path => isReadable (contents path))
  /-- In words there is one line for each diagnostic, unless a path is broken into lines. -/
  words : options.dumpTree = false → options.json = false →
    (∀ path ∈ options.files, isOneLine path = true) →
    HasLines (report options contents encoder).stdout
      (options.files.map fun path => diagnosticCount options path (contents path)).sum
  /-- No message of a diagnostic is broken into lines, whatever the text and the settings. -/
  messages : ∀ file text settings, ∀ diagnostic ∈ (validate file text settings).diagnostics,
    ∀ c ∈ diagnostic.message.toList, breaksLine c = false

/-- Every report is by file and exact to the line (`ReportsByFile`), whatever the `encoder` can
print. -/
theorem report_byFile (options : Options) (contents : String → Contents) (encoder : Encoder) :
    ReportsByFile options contents encoder where
  files _ := files_ne_nil_of_ofWords
  status := isGreatest_status options contents encoder
  order _ := status_report_perm
  printed := stdout_report options contents encoder
  unreadable _ h := stdout_only (output_fileReport_unreadable h)
  refused htree _ h := stdout_only (output_fileReport_tree htree h)
  json htree hjson := by
    have hlines := hasLines_report fun path _ =>
      output_fileReport_json htree hjson path (contents path) encoder
    rwa [sum_map_ite fun path => isReadable (contents path)] at hlines
  words htree hjson hpaths :=
    hasLines_report fun path hpath =>
      output_fileReport_words htree hjson (hpaths path hpath) (contents path)
  messages _ _ _ _ hdiagnostic :=
    isOneLine_iff.mp (isOneLine_of_isPlain (isPlain_of_mem_diagnostics hdiagnostic))

/-- The sum of 2000 ones under `--dump-ast`: the file can be read and cut into tokens, so its status
would be 0 if no tree were too deep; but the encoder gives up on its tree, the status is 1, and
nothing is printed. -/
theorem report_deepTree :
    Options.ofWords ["--dump-ast", "deep.nt"] = .ok dumping ∧
      textOf (holdingSum 1999 "deep.nt") = .ok (Rendering.sumText 1999) ∧
      (tokenize (Rendering.sumText 1999)).isOk ∧
      statusOf dumping "deep.nt" (holdingSum 1999 "deep.nt") (fun _ => true) = 0 ∧
      (report dumping (holdingSum 1999) .standard).status = 1 ∧
      (report dumping (holdingSum 1999) .standard).stdout = "" :=
  ⟨by decide +kernel, textOf_sumText 1999, report_sumText (by decide)⟩

end NeutronLang.CommandLine
