import PixelLang.Failure
import PixelLang.Workspace

/-!
# Commands

`Command.run` does a command in a workspace. It reads no files and prints nothing itself: the
`Outcome` holds the workspace as the command leaves it and all that is to be printed.
-/

set_option autoImplicit false

namespace PixelLang

inductive Command
  | compile (image : String) (scheme output : Option String) (json : Bool)
  | check (paths : List String) (scheme : Option String)
  | completions (shell : String)
deriving DecidableEq

structure Outcome where
  workspace : Workspace
  stdout : String := ""
  stderr : String := ""
  failure : Option Failure := none
  log : List Event := []

/-! ## Reports -/

/-- A line that tells what is done; the verbs are aligned at their ends. -/
def statusLine (verb message : String) : String :=
  String.ofList (List.replicate (12 - verb.length) ' ') ++ verb ++ " " ++ message ++ "\n"

/-- A diagnostic of the image at a path, on lines of its own. -/
def Workspace.diagnosticLine (w : Workspace) (path : String) (d : Diagnostic) : String :=
  "error[" ++ d.kind.code ++ "]: " ++ Path.display w.cwd path ++ ":" ++ toString d.x ++ ":" ++
    toString d.y ++ ": " ++ d.message ++
    (match d.keyword with
      | some k => " (" ++ k.key ++ " token " ++ toString d.tokenIndex ++ ")"
      | none => "") ++
    d.templateText ++ "\n"

def Workspace.diagnosticLines (w : Workspace) (path : String) (e : Evaluation) : String :=
  String.join (e.diagnostics.map (w.diagnosticLine path))

/-! ## Languages -/

/-- The language of a scheme file, or the standard one. -/
def Workspace.loadLanguage (w : Workspace) :
    (scheme : Option String) → Except Failure (Language × List Event)
  | none => .ok (.standard, [])
  | some path =>
    match w.readText path with
    | .error fault => .error (.schemeFile path fault)
    | .ok source =>
      match Scheme.ofSource source with
      | .error fault => .error (.scheme fault)
      | .ok scheme => .ok (.build scheme .standard [], [.loaded scheme.size path])

/-! ## Compiling -/

/-- Writes the text of a command to a file, or else to standard output. -/
def Outcome.write (o : Outcome) (path : Option String) (text : String) : Outcome :=
  match path with
  | none => { o with stdout := o.stdout ++ text }
  | some path =>
    match o.workspace.writeText path text with
    | .error fault => { o with failure := some (.output path fault) }
    | .ok w => { o with workspace := w }

def Outcome.prints (o : Outcome) (text : String) : Outcome := { o with stderr := o.stderr ++ text }

/-- The end of a compilation that found no errors. -/
def Outcome.writeCode (o : Outcome) (output : Option String) (code : String) : Outcome :=
  let o := o.write output code
  match output, o.failure with
  | some path, none => o.prints (statusLine "Finished" (Path.display o.workspace.cwd path))
  | _, _ => o

/-- Compiles an image in a language. -/
def Workspace.compileImage (w : Workspace) (l : Language) (path : String) (img : Image)
    (output : Option String) (json : Bool) : Outcome :=
  let shown := Path.display w.cwd path
  let e := l.evaluate img
  let size := toString img.width ++ "x" ++ toString img.height
  let o : Outcome :=
    { workspace := w
      stderr := statusLine "Compiling" (shown ++ " (" ++ size ++ ")")
      log := e.log }
  if json then
    match w.host.serialize e.toJson with
    | .error message => { o with failure := some (.serialize message) }
    | .ok text => o.write output text
  else
    let o := o.prints (w.diagnosticLines path e)
    if e.invalidated then { o with failure := some (.program shown e.diagnostics.length) }
    else o.writeCode output e.code

def Workspace.compile (w : Workspace) (path : String) (scheme output : Option String)
    (json : Bool) : Outcome :=
  match w.loadLanguage scheme with
  | .error failure => { workspace := w, failure := some failure }
  | .ok (l, log) =>
    match w.openImage path with
    | .error message => { workspace := w, failure := some (.image path message), log }
    | .ok img =>
      let o := w.compileImage l path img output json
      { o with log := log ++ o.log }

/-! ## Checking -/

/-- The images that a path stands for: those in a directory, or the file itself. -/
def Workspace.images (w : Workspace) (path : String) : List String × List Event :=
  if w.isDirectory path then
    let found := w.imagesIn path
    (found, [.found (plural found.length "image" "images") path])
  else ([path], [])

/-- What came of checking an image. -/
structure Verdict where
  valid : Bool
  text : String
  log : List Event

def Workspace.checkImage (w : Workspace) (l : Language) (path : String) : Verdict :=
  match w.openImage path with
  | .error message => ⟨false, statusLine "Failed" (Failure.image path message).message, []⟩
  | .ok img =>
    let e := l.evaluate img
    let status := statusLine (if e.invalidated then "Invalid" else "Checked")
      (Path.display w.cwd path)
    ⟨!e.invalidated, w.diagnosticLines path e ++ status, e.log⟩

/-- The outcome of checking some images. -/
def Workspace.checkAll (w : Workspace) (verdicts : List Verdict) : Outcome :=
  let invalid := verdicts.countP (!·.valid)
  let o : Outcome :=
    { workspace := w
      stderr := String.join (verdicts.map Verdict.text)
      log := verdicts.flatMap Verdict.log }
  if invalid = 0 then o.prints (statusLine "Finished" (Failure.summary verdicts.length invalid))
  else { o with failure := some (.images verdicts.length invalid) }

def Workspace.check (w : Workspace) (paths : List String) (scheme : Option String) : Outcome :=
  match w.loadLanguage scheme with
  | .error failure => { workspace := w, failure := some failure }
  | .ok (l, log) =>
    let found := paths.map w.images
    let log := log ++ found.flatMap (·.2)
    let images := found.flatMap (·.1)
    if images.isEmpty then
      { workspace := w, stderr := statusLine "Skipped" "no .png images found", log }
    else
      let o := w.checkAll (images.map (w.checkImage l))
      { o with log := log ++ o.log }

/-- Does a command. A completion script is not part of an outcome. -/
def Command.run (w : Workspace) : Command → Outcome
  | compile image scheme output json => w.compile image scheme output json
  | check paths scheme => w.check paths scheme
  | completions _ => { workspace := w }

end PixelLang
