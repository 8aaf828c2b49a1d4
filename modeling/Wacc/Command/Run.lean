/-
  The commands.

  `run` takes a command line and the surroundings, and gives the exit code and the surroundings
  afterwards.
-/
import Wacc.Command.Settings
import Wacc.Report.Outline
import Wacc.Report.Tokens
import Wacc.Source.Load

namespace Wacc.Command

def failure : Nat := 1

/-! ## Tracing -/

def openTrace (g : Given) (t : Config.Tracing) : Act (Trace × Option Text) := do
  let m ← getThe Machine
  let level ← orComplain .traceLevel (Trace.Level.ofName t.level)
  if level = .off then return ({ clock := m.clock, seq := m.seq, spans := m.spans }, none)
  let format ← orComplain .traceFormat (Trace.Format.ofName t.format)
  let mode ← orComplain .traceMode (Trace.Mode.ofName ((g.get? (lit "trace-mode")).getD (lit "stream")))
  let c : Trace.Config := { level, mode, format, path := t.output }
  match Trace.ofConfig? c m.clock with
  | none => complain (.traceKind c.modeOf)
  | some trace =>
    let trace := { trace with seq := m.seq, spans := m.spans }
    if t.output.isEmpty || t.output == lit "-" || !trace.streams then return (trace, none)
    else
      writeFile .traceOutput t.output []
      return (trace, some t.output)

def closeTrace (t : Trace) (file : Option Text) : Act Unit := do
  modifyThe Machine fun m => { m with seq := t.seq, spans := t.spans }
  match file with
  | none => printErr t.written
  | some path => writeFile .traceOutput path t.written

def keptEvents (t : Trace) : Text :=
  match t.history? with
  | none => []
  | some r => lit "--- trace (most recent events) ---\n" ++ r.render .text

/-! ## Commands -/

def loadSource (path : Text) : Act FileSet := do
  let raw ← orComplain (.notLoaded path) ((← disk).read path)
  return (({} : FileSet).load path raw).2

/-- Compile a file up to a stage, and report.  A rejected program ends the command. -/
def compile (g : Given) (path : Text) (stage : Stage) : Act (Compile.Outcome × Settings) := do
  let s ← Settings.load g path
  let (trace, file) ← openTrace g s.config.trace
  let files ← loadSource path
  let opts : Compile.Options :=
    { max := s.config.diagnostics.max, stage, cache := if stage = .codegen then s.cache else none }
  let (r, w) := Compile.run Compile.background opts files 0 { trace, disk := ← disk }
  setDisk w.disk
  closeTrace w.trace file
  match r with
  | .error f =>
    if f.fault?.isSome then printErr (keptEvents w.trace)
    complain (.failed f)
  | .ok o =>
    printErr (s.report files o.bag)
    printErr (s.reportTimings (← getThe Machine).measured o)
    if o.exitCode ≠ 0 then throw (.exit o.exitCode)
    return (o, s)

def build (g : Given) (path : Text) : Act Unit := do
  let (o, s) ← compile g path .codegen
  let target := s.config.outputPath path ((g.get? (lit "output")).getD [])
  if target == lit "-" then print o.asm
  else
    let dir := Path.dir target
    if dir != lit "." then
      setDisk (← orComplain .outputDir ((← disk).makeDirs dir))
    writeFile (.notWritten target) target o.asm

def showProgram (g : Given) (path : Text) : Act Unit := do
  let (o, _) ← compile g path .sema
  match o.program with
  | some p => print (Outline.ofProgram p).render
  | none => return

def tokenize (g : Given) (path : Text) : Act Unit := do
  let format := (g.get? (lit "format")).getD (lit "pretty")
  let s ← Settings.load g path
  let files ← loadSource path
  match files.get? 0 with
  | none => return
  | some f =>
    let bag := ({ limit := s.config.diagnostics.max } : Bag).addAll (Scan.diagnostics f.id f.content)
    let ts := Scan.tokens f.id f.content
    if format == lit "pretty" then print (Report.tokensPretty files ts)
    else if format == lit "json" then print (Report.tokensJson files ts)
    else complain (.tokenFormat format)
    printErr (s.report files bag)
    if bag.exitCode ≠ 0 then throw (.exit bag.exitCode)

def clean (given : Option Text) : Act Unit := do
  let base := match given with
    | some p => if p.isEmpty then lit "." else p
    | none => lit "."
  let e ← orComplain (.notSeen base) ((← disk).stat base)
  let start := if e = .dir then base else Path.dir base
  let c ← orComplain .config (Config.discover (← disk) start)
  let dir ← orComplain id (cacheDir (← getThe Machine) c)
  let missing : Bool := match (← disk).stat dir with
    | .error e => e.cause == .notFound
    | .ok _ => false
  if missing then print (lit "cache directory not found\n")
  else
    let (cache, d) ← orComplain .cache (Cache.openAt (← disk) dir)
    setDisk d
    setDisk (← orComplain (.notCleaned dir) (cache.drop (← disk)))
    print (lit "removed cache in " ++ dir ++ lit "\n")

def showVersion (g : Given) : Act Unit := do
  let format := (g.get? (lit "format")).getD (lit "pretty")
  let wanted := Case.lower format
  if wanted == lit "pretty" then print (Version.banner false .build)
  else if wanted == lit "json" then print (Version.json .build).indented
  else complain (.versionFormat format)

def usage : Text :=
  lit "usage: waccc <command> [flags] [file]\n\ncommands:\n" ++
    (Verb.all.map fun v => lit "  " ++ v.name ++ lit "\n").flatten

def perform (v : Verb) (g : Given) : Act Unit :=
  let path := g.args.headD []
  match v with
  | .tokenize => tokenize g path
  | .build => build g path
  | .check => do let _ ← compile g path .sema
  | .parse => showProgram g path
  | .clean => clean g.args.head?
  | .version => showVersion g

/-! ## Profiles -/

def writeProfile (p : Profile) (path : Text) : Act Unit :=
  if path.isEmpty then return else writeFile (.profile p) path []

/-- Start the profiles.  If the second one cannot be started, the heap profile is written there and
    then, whether or not it can be. -/
def startProfiles (g : Given) : Act Unit := do
  let path (name : String) : Text := (g.get? (lit name)).getD []
  writeProfile .cpu (path "cpu-profile")
  try writeProfile .events (path "go-trace")
  catch e =>
    try writeProfile .heap (path "mem-profile") catch _ => pure ()
    throw e

/-- The profile that is written at the end; a complaint about it changes nothing else. -/
def stopProfiles (g : Given) : Act Unit := do
  try writeProfile .heap ((g.get? (lit "mem-profile")).getD [])
  catch e =>
    match e with
    | .complaint c => printErr (lit "waccc: profiling: " ++ c.message ++ lit "\n")
    | .exit _ => return

def profiled (v : Verb) (g : Given) : Act Unit := do
  startProfiles g
  try perform v g
  catch e =>
    stopProfiles g
    throw e
  stopProfiles g

def answer (args : List Text) : Act Unit := do
  match ← orComplain .request (Request.ofArgs args) with
  | .help => print usage
  | .version => print (lit "waccc version " ++ Version.current ++ lit "\n")
  | .run v g => profiled v g

/-- Run a command line: the exit code and the surroundings afterwards. -/
def run (args : List Text) (m : Machine) : Nat × Machine :=
  match (answer args).run m with
  | (.ok (), m) => (0, m)
  | (.error (.exit n), m) => (n, m)
  | (.error (.complaint c), m) => (failure, { m with err := m.err ++ lit "waccc: " ++ c.message ++ lit "\n" })

end Wacc.Command
