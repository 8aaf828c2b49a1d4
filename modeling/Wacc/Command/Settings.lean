/-
  The settings of a command: the configuration of the project, with what the command line says in
  its place.

  A flag that is not given never takes the place of what the configuration says.  A cache that
  cannot be used is not an error: the command goes on without one.
-/
import Wacc.Command.Machine
import Wacc.Report.Document
import Wacc.Report.Short

namespace Wacc.Command

structure Settings where
  config : Config
  color : Bool := false
  timings : Bool := false
  cache : Option Cache := none

namespace Settings

/-- The trace settings with what was given in their place.  An output alone turns the trace on. -/
def traceGiven (g : Given) (t : Config.Tracing) : Config.Tracing :=
  let t := { t with output := (g.get? (lit "trace")).getD t.output,
                    format := (g.get? (lit "trace-format")).getD t.format,
                    level := (g.get? (lit "trace-level")).getD t.level }
  if (g.get? (lit "trace")).isSome && (g.get? (lit "trace-level")).isNone &&
      (t.level.isEmpty || t.level == lit "off") then
    { t with level := lit "phase" }
  else t

def diagnosticsGiven (g : Given) (d : Config.Diagnostics) : Config.Diagnostics :=
  { max := ((g.get? (lit "max-diagnostics")).bind fun t => (Number.integer t).toOption).getD d.max,
    color := (g.get? (lit "color")).getD d.color,
    format := (g.get? (lit "diagnostics-format")).getD d.format }

def configGiven (g : Given) (c : Config) : Config :=
  { c with diagnostics := diagnosticsGiven g c.diagnostics, trace := traceGiven g c.trace }

end Settings

/-- The directory of the cache: next to the configuration, or else the one of the user. -/
def cacheDir (m : Machine) (c : Config) : Except Complaint Text :=
  if !c.dir.isEmpty then .ok (c.resolveDir c.build.cacheDir)
  else if !m.cacheHome.isEmpty then .ok (Path.join [m.cacheHome, lit "waccc"])
  else if m.home.isEmpty then .error .noHome
  else .ok (Path.join [Path.join [m.home, lit ".cache"], lit "waccc"])

def openCache (c : Config) : Act (Option Cache) := do
  let m ← getThe Machine
  let opened : Except Complaint (Cache × Disk) :=
    match cacheDir m c with
    | .error e => .error e
    | .ok dir => (Cache.openAt m.disk dir).mapError Complaint.cache
  match opened with
  | .ok (cache, d) =>
    setDisk d
    return some cache
  | .error e =>
    printErr (lit "waccc: cache disabled: " ++ e.message ++ lit "\n")
    return none

def Settings.load (g : Given) (path : Text) : Act Settings := do
  let found ← orComplain .config (Config.discover (← disk) (Path.dir path))
  let c := Settings.configGiven g found
  match c.violations with
  | [] => pure ()
  | vs => complain (.settings vs)
  let color := c.diagnostics.color == lit "on" ||
    (c.diagnostics.color == lit "auto" && (← getThe Machine).terminal)
  let cache ← if c.build.cache && !g.isOn (lit "no-cache") then openCache c else pure none
  return { config := c, color, timings := g.isOn (lit "timings"), cache }

def Settings.report (s : Settings) (files : FileSet) (bag : Bag) : Text :=
  let max := s.config.diagnostics.max
  if bag.items.isEmpty then []
  else if s.config.diagnostics.format == lit "short" then Report.shortListing files true bag.items
  else if s.config.diagnostics.format == lit "json" then
    Report.document { positions := true, notes := true, max } files bag.items
  else Report.pretty { color := s.color, context := 1, notes := true, max } files bag.items

def Settings.reportTimings (s : Settings) (measured : Phase → Float) (o : Compile.Outcome) : Text :=
  if s.timings && !o.cached then
    Timings.summary
      { phases := o.phases.map fun p => (p, measured p),
        total := o.phases.foldl (fun t p => t + measured p) 0 }
  else []

end Wacc.Command
