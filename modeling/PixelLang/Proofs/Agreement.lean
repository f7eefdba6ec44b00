import PixelLang.Command
import PixelLang.Shell.Host
import PixelLang.Proofs.Validity

/-!
# Checking and compiling

Both commands load a language, open an image and evaluate it (`Workspace.evaluation`), and go
different ways from there: compiling stops with the first failure, checking counts them.

* `Workspace.compile_of_error`, `compile_of_invalidated`, `output_of_compile`: how compiling fails
  after each of the three ways an evaluation can end. Only the last of them comes to writing.
* `Workspace.valid_checkImage`: the verdict on an image is that it compiles.
* `Command.check_agrees`: checking images fails exactly if compiling one of them fails, and counts
  those that do. Before it writes, a failed compilation has changed no file.

Nothing is asked of the host: the two commands agree whatever pictures it makes of the files.
-/

set_option autoImplicit false

namespace PixelLang

theorem Language.diagnostics_ne_nil {l : Language} {img : Image}
    (h : (l.evaluate img).invalidated = true) : (l.evaluate img).diagnostics ≠ [] := by
  intro hnil
  have hvalid := invalidated_eq l (l.pixels img)
  rw [← evaluate, hnil, h] at hvalid
  exact absurd hvalid (by decide)

namespace Outcome

theorem failure_writeCode (o : Outcome) (output : Option String) (code : String) :
    (o.writeCode output code).failure = (o.write output code).failure := by
  unfold writeCode
  generalize o.write output code = written
  cases output with
  | none => rfl
  | some path => cases hfailure : written.failure <;> simp only [hfailure, prints]

theorem failure_write {o : Outcome} (h : o.failure = none) {output : Option String} {text : String}
    {failure : Failure} (hfailure : (o.write output text).failure = some failure) :
    ∃ path fault, output = some path ∧ failure = .output path fault := by
  unfold write at hfailure
  split at hfailure
  · exact absurd (h.symm.trans hfailure) (by simp)
  · rename_i path
    split at hfailure
    · rename_i fault _
      exact ⟨path, fault, rfl, (Option.some.inj hfailure).symm⟩
    · exact absurd (h.symm.trans hfailure) (by simp)

end Outcome

namespace Workspace

/-! ## What both commands do -/

/-- The evaluation of the image at a path in the language of a scheme file, or what keeps it from
being evaluated. -/
def evaluation (w : Workspace) (scheme : Option String) (path : String) :
    Except Failure Evaluation :=
  match w.loadLanguage scheme with
  | .error failure => .error failure
  | .ok (l, _) =>
    match w.openImage path with
    | .error message => .error (.image path message)
    | .ok img => .ok (l.evaluate img)

/-- The three ways an evaluation can end. -/
theorem evaluation_cases (w : Workspace) (scheme : Option String) (path : String) :
    (∃ failure, w.loadLanguage scheme = .error failure ∧
      w.evaluation scheme path = .error failure) ∨
    (∃ l log message, w.loadLanguage scheme = .ok (l, log) ∧ w.openImage path = .error message ∧
      w.evaluation scheme path = .error (.image path message)) ∨
    ∃ l log img, w.loadLanguage scheme = .ok (l, log) ∧ w.openImage path = .ok img ∧
      w.evaluation scheme path = .ok (l.evaluate img) := by
  unfold evaluation
  cases hload : w.loadLanguage scheme with
  | error failure => exact .inl ⟨failure, rfl, rfl⟩
  | ok loaded =>
    cases hopen : w.openImage path with
    | error message => exact .inr (.inl ⟨loaded.1, loaded.2, message, rfl, rfl, rfl⟩)
    | ok img => exact .inr (.inr ⟨loaded.1, loaded.2, img, rfl, rfl, rfl⟩)

section

variable {w : Workspace} {scheme : Option String} {path : String} {e : Evaluation}

theorem exists_of_evaluation (h : w.evaluation scheme path = .ok e) :
    ∃ l log img, w.loadLanguage scheme = .ok (l, log) ∧ w.openImage path = .ok img ∧
      e = l.evaluate img := by
  rcases w.evaluation_cases scheme path with
    ⟨_, -, heval⟩ | ⟨_, _, _, -, -, heval⟩ | ⟨l, log, img, hload, hopen, heval⟩
  · rw [heval] at h
    exact absurd h (by simp)
  · rw [heval] at h
    exact absurd h (by simp)
  · rw [heval] at h
    exact ⟨l, log, img, hload, hopen, (Except.ok.inj h).symm⟩

theorem diagnostics_of_evaluation (h : w.evaluation scheme path = .ok e)
    (he : e.invalidated = true) : 1 ≤ e.diagnostics.length := by
  obtain ⟨l, log, img, -, -, rfl⟩ := exists_of_evaluation h
  exact List.length_pos_iff.2 (Language.diagnostics_ne_nil he)

/-! ## Compiling -/

theorem compile_of_error {failure : Failure} (h : w.evaluation scheme path = .error failure)
    (output : Option String) (json : Bool) :
    (w.compile path scheme output json).failure = some failure ∧
      (w.compile path scheme output json).workspace = w := by
  rcases w.evaluation_cases scheme path with
    ⟨_, hload, heval⟩ | ⟨_, _, _, hload, hopen, heval⟩ | ⟨_, _, _, -, -, heval⟩
  · obtain rfl := Except.error.inj (heval.symm.trans h)
    simp [compile, hload]
  · obtain rfl := Except.error.inj (heval.symm.trans h)
    simp [compile, hload, hopen]
  · rw [heval] at h
    exact absurd h (by simp)

theorem compile_of_invalidated (h : w.evaluation scheme path = .ok e) (he : e.invalidated = true)
    (output : Option String) :
    (w.compile path scheme output false).failure =
        some (.program (Path.display w.cwd path) e.diagnostics.length) ∧
      (w.compile path scheme output false).workspace = w := by
  obtain ⟨l, log, img, hload, hopen, rfl⟩ := exists_of_evaluation h
  simp only [compile, compileImage, hload, hopen, he]
  exact ⟨rfl, rfl⟩

/-- Compiling a program without errors can only fail to write it. -/
theorem output_of_compile (h : w.evaluation scheme path = .ok e) (he : e.invalidated = false)
    {output : Option String} {failure : Failure}
    (hfailure : (w.compile path scheme output false).failure = some failure) :
    ∃ target fault, output = some target ∧ failure = .output target fault := by
  obtain ⟨l, log, img, hload, hopen, rfl⟩ := exists_of_evaluation h
  simp only [compile, compileImage, hload, hopen, he] at hfailure
  exact Outcome.failure_write rfl ((Outcome.failure_writeCode ..).symm.trans hfailure)

/-- Without a file to write, compiling fails exactly if there is no valid evaluation. -/
theorem failure_compile_eq_none_iff :
    (w.compile path scheme none false).failure = none ↔
      ∃ e, w.evaluation scheme path = .ok e ∧ e.invalidated = false := by
  cases h : w.evaluation scheme path with
  | error failure => simp [(compile_of_error h none false).1]
  | ok e =>
    cases he : e.invalidated with
    | true => simp [(compile_of_invalidated h he none).1, he]
    | false =>
      refine ⟨fun _ => ⟨e, rfl, he⟩, fun _ => Option.eq_none_iff_forall_ne_some.2 ?_⟩
      intro failure hfailure
      obtain ⟨target, -, hnone, -⟩ := output_of_compile h he hfailure
      exact absurd hnone (by simp)

/-! ## Checking -/

theorem valid_checkImage {loaded : Language × List Event}
    (h : w.loadLanguage scheme = .ok loaded) :
    (w.checkImage loaded.1 path).valid = (w.compile path scheme none false).failure.isNone := by
  rw [Bool.eq_iff_iff, Option.isNone_iff_eq_none, failure_compile_eq_none_iff]
  cases hopen : w.openImage path <;> simp [checkImage, evaluation, h, hopen]

end

/-- Files are checked as they are given. -/
theorem flatMap_images {w : Workspace} {paths : List String}
    (h : ∀ path ∈ paths, w.isDirectory path = false) :
    (paths.map w.images).flatMap Prod.fst = paths := by
  induction paths with
  | nil => rfl
  | cons path rest ih =>
    obtain ⟨hpath, hrest⟩ := List.forall_mem_cons.1 h
    have himages : w.images path = ([path], []) := if_neg (by simp [hpath])
    rw [List.map_cons, List.flatMap_cons, himages, ih hrest]
    rfl

theorem failure_checkAll (w : Workspace) (verdicts : List Verdict) :
    (w.checkAll verdicts).failure =
      if verdicts.countP (!·.valid) = 0 then none
      else some (.images verdicts.length (verdicts.countP (!·.valid))) := by
  simp only [checkAll]
  split <;> rfl

/-- Checking files counts those that do not compile. -/
theorem failure_check {w : Workspace} {scheme : Option String} {paths : List String}
    {loaded : Language × List Event} (hload : w.loadLanguage scheme = .ok loaded)
    (hne : paths ≠ []) (hfiles : ∀ path ∈ paths, w.isDirectory path = false) :
    (w.check paths scheme).failure =
      let invalid := paths.countP fun path => (w.compile path scheme none false).failure.isSome
      if invalid = 0 then none else some (.images paths.length invalid) := by
  have himages : (paths.map w.images).flatMap (·.1) = paths := flatMap_images hfiles
  have hcheck : (w.check paths scheme).failure =
      (w.checkAll (paths.map (w.checkImage loaded.1))).failure := by
    simp only [check, hload, himages, List.isEmpty_eq_false_iff.2 hne]
    rfl
  have hcount : (paths.map (w.checkImage loaded.1)).countP (!·.valid) =
      paths.countP fun path => (w.compile path scheme none false).failure.isSome := by
    rw [List.countP_map]
    refine List.countP_congr fun path _ => ?_
    simp [valid_checkImage hload]
  rw [hcheck, failure_checkAll, hcount, List.length_map]

end Workspace

/-! ## Agreement -/

/-- **Checking agrees with compiling.** Checking some files succeeds if and only if the scheme loads
and each of them compiles; otherwise, if the scheme loads, the failure tells how many of them do not
compile. A compilation that fails for another reason than writing leaves all files as they were, and
one of a program with errors tells their number, which is not zero. -/
theorem Command.check_agrees (w : Workspace) (scheme : Option String) :
    (∀ paths : List String, paths ≠ [] → (∀ path ∈ paths, w.isDirectory path = false) →
      ((run w (.check paths scheme)).failure = none ↔
        (∃ loaded, w.loadLanguage scheme = .ok loaded) ∧
          ∀ path ∈ paths, (run w (.compile path scheme none false)).failure = none) ∧
      ∀ loaded failure, w.loadLanguage scheme = .ok loaded →
        (run w (.check paths scheme)).failure = some failure →
          failure = .images paths.length (paths.countP fun path =>
            (run w (.compile path scheme none false)).failure.isSome)) ∧
    (∀ path output failure, (run w (.compile path scheme output false)).failure = some failure →
      (∀ target fault, failure ≠ .output target fault) →
        (run w (.compile path scheme output false)).workspace = w) ∧
    ∀ path output e, w.evaluation scheme path = .ok e → e.invalidated = true →
      (run w (.compile path scheme output false)).failure =
          some (.program (Path.display w.cwd path) e.diagnostics.length) ∧
        1 ≤ e.diagnostics.length := by
  refine ⟨fun paths hne hfiles => ?_, fun path output failure hfailure hother => ?_,
    fun path output e heval he => ?_⟩
  · cases hload : w.loadLanguage scheme with
    | error failure =>
      have hcheck : (run w (.check paths scheme)).failure = some failure := by
        simp [run, Workspace.check, hload]
      simp [hcheck]
    | ok loaded =>
      have hcheck : (run w (.check paths scheme)).failure = _ :=
        Workspace.failure_check hload hne hfiles
      have hzero : (paths.countP fun path =>
          (run w (.compile path scheme none false)).failure.isSome) = 0 ↔
            ∀ path ∈ paths, (run w (.compile path scheme none false)).failure = none := by
        simp [List.countP_eq_zero]
      by_cases hall : ∀ path ∈ paths, (run w (.compile path scheme none false)).failure = none
      · have hnone : (run w (.check paths scheme)).failure = none :=
          hcheck.trans (if_pos (hzero.2 hall))
        rw [hnone]
        exact ⟨⟨fun _ => ⟨⟨loaded, rfl⟩, hall⟩, fun _ => rfl⟩, fun _ _ _ h => absurd h (by simp)⟩
      · have hsome := hcheck.trans (if_neg fun h => hall (hzero.1 h))
        rw [hsome]
        exact ⟨⟨fun h => absurd h (by simp), fun h => absurd h.2 hall⟩,
          fun _ _ _ h => (Option.some.inj h).symm⟩
  · have hsame : (w.compile path scheme output false).workspace = w := by
      cases heval : w.evaluation scheme path with
      | error failure => exact (Workspace.compile_of_error heval output false).2
      | ok e =>
        cases he : e.invalidated with
        | true => exact (Workspace.compile_of_invalidated heval he output).2
        | false =>
          obtain ⟨target, fault, -, hwrite⟩ := Workspace.output_of_compile heval he hfailure
          exact absurd hwrite (hother target fault)
    exact hsame
  · exact ⟨(Workspace.compile_of_invalidated heval he output).1,
      Workspace.diagnostics_of_evaluation heval he⟩

/-- The bytes of two pictures and what they show: a program that prints a letter, and a letter that
belongs to no statement. -/
def deskPictures : List (ByteArray × Image) :=
  [(⟨#[137, 80, 78, 71, 13, 10, 26, 10, 0, 0, 0, 13, 73, 72, 68, 82, 0, 0, 0, 2, 0, 0, 0, 1, 8, 2,
      0, 0, 0, 123, 64, 232, 221, 0, 0, 0, 15, 73, 68, 65, 84, 120, 1, 99, 248, 207, 144, 86, 81,
      81, 1, 0, 10, 105, 2, 206, 216, 29, 219, 44, 0, 0, 0, 0, 73, 69, 78, 68, 174, 66, 96, 130]⟩,
      .ofRows [[⟨0xFF, 0x00, 0x66, 255⟩, .grey 120]]),
    (⟨#[137, 80, 78, 71, 13, 10, 26, 10, 0, 0, 0, 13, 73, 72, 68, 82, 0, 0, 0, 1, 0, 0, 0, 1, 8, 2,
      0, 0, 0, 144, 119, 83, 222, 0, 0, 0, 12, 73, 68, 65, 84, 120, 1, 99, 112, 116, 116, 4, 0, 1,
      138, 0, 196, 0, 188, 100, 189, 0, 0, 0, 0, 73, 69, 78, 68, 174, 66, 96, 130]⟩,
      .ofRows [[.grey 65]])]

/-- The decoder that knows these pictures only. -/
def deskDecode (_path : String) : Node → Except String Image
  | .directory => .error FileFault.isDirectory.message
  | .file data => ((deskPictures.lookup data).map Except.ok).getD (.error "no picture")

/-- A directory with the two pictures and a file that is none. -/
def desk : Workspace where
  files := ⟨(["notes.png"], .file "notes".toUTF8) ::
    [["print.png"], ["stray.png"]].zip (deskPictures.map fun picture => .file picture.1)⟩
  cwd := "/"
  host := { Host.shell with decode := deskDecode }

/-- The three files, and one that is not there. -/
def deskPaths : List String := ["print.png", "stray.png", "notes.png", "missing.png"]

theorem Command.check_desk :
    (∀ path ∈ deskPaths, desk.isDirectory path = false) ∧
      (run desk (.compile "print.png" none none false)).failure = none ∧
      (run desk (.check deskPaths none)).failure = some (.images 4 3) ∧
      (run desk (.compile "stray.png" none (some "code.kts") false)).failure =
        some (.program "stray.png" 1) ∧
      (run desk (.compile "stray.png" none (some "code.kts") false)).workspace = desk := by
  obtain ⟨hchecks, hkeeps, hreports⟩ := Command.check_agrees desk none
  have hfiles : ∀ path ∈ deskPaths, desk.isDirectory path = false := by decide +kernel
  have hprint : (run desk (.compile "print.png" none none false)).failure = none := by
    decide +kernel
  have hstray (output : Option String) :
      (run desk (.compile "stray.png" none output false)).failure =
        some (.program "stray.png" 1) := by
    have hcounts : (desk.evaluation none "stray.png").toOption.map
        (fun e => (e.invalidated, e.diagnostics.length)) = some (true, 1) := by decide +kernel
    cases heval : desk.evaluation none "stray.png" with
    | error failure => simp [heval, Except.toOption] at hcounts
    | ok e =>
      rw [heval] at hcounts
      obtain ⟨he, hone⟩ := Prod.mk.inj (Option.some.inj hcounts)
      rw [(hreports _ output e heval he).1, hone]
      rfl
  have hinvalid : (deskPaths.countP fun path =>
      (run desk (.compile path none none false)).failure.isSome) = 3 := by
    have hnotes : (run desk (.compile "notes.png" none none false)).failure.isSome := by
      decide +kernel
    have hmissing : (run desk (.compile "missing.png" none none false)).failure.isSome := by
      decide +kernel
    simp [deskPaths, hprint, hstray, hnotes, hmissing]
  obtain ⟨hok, hcount⟩ := hchecks deskPaths (by decide) hfiles
  refine ⟨hfiles, hprint, ?_, hstray _, hkeeps _ _ _ (hstray _) (by simp)⟩
  cases hfailure : (run desk (.check deskPaths none)).failure with
  | none =>
    have hvalid := (hok.1 hfailure).2 "stray.png" (by decide)
    rw [hstray] at hvalid
    exact absurd hvalid (by simp)
  | some failure =>
    rw [hcount _ failure rfl hfailure, hinvalid]
    rfl

end PixelLang
