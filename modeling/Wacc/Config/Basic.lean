/-
  The settings of a project.

  Every setting has a default.  `violations` lists what is wrong with a configuration, in the
  order of the settings; a configuration is used only if there are none.
-/
import Wacc.Source.Path
import Wacc.Text.Quoted

namespace Wacc

namespace Config

structure Build where
  outputDir : Text := []
  cache : Bool := true
  cacheDir : Text := lit ".waccc-cache"
  deriving DecidableEq, Repr

structure Diagnostics where
  max : Int := 100
  color : Text := lit "auto"
  format : Text := lit "pretty"
  deriving DecidableEq, Repr

structure Tracing where
  level : Text := lit "off"
  format : Text := []
  output : Text := lit "-"
  deriving DecidableEq, Repr

inductive Violation where
  | color (value : Text)
  | format (value : Text)
  | max (value : Int)
  deriving DecidableEq, Repr

def Violation.message : Violation → Text
  | .color v =>
    lit "invalid [diagnostics].color: " ++ Quoted.quote v ++ lit " (expected auto|on|off)"
  | .format v =>
    lit "invalid [diagnostics].format: " ++ Quoted.quote v ++ lit " (expected pretty|short|json)"
  | .max n => lit "[diagnostics].max must not be negative, got " ++ decimalInt n

def Violation.isColor : Violation → Bool
  | .color _ => true
  | _ => false

def Violation.isFormat : Violation → Bool
  | .format _ => true
  | _ => false

def listed (vs : List Violation) : Text := Text.joinWith (lit "\n") (vs.map (·.message))

end Config

structure Config where
  build : Config.Build := {}
  diagnostics : Config.Diagnostics := {}
  trace : Config.Tracing := {}
  /-- the directory of the file that they were read from; empty if there was none -/
  dir : Text := []
  deriving DecidableEq, Repr

namespace Config

def violations (c : Config) : List Violation :=
  let d := c.diagnostics
  (if [lit "auto", lit "on", lit "off"].contains d.color then [] else [.color d.color]) ++
  (if [lit "pretty", lit "short", lit "json"].contains d.format then [] else [.format d.format]) ++
  (if d.max < 0 then [.max d.max] else [])

/-- A directory that the configuration names, taken from the directory of its file. -/
def resolveDir (c : Config) (dir : Text) : Text :=
  if dir.isEmpty || Path.isAbs dir || c.dir.isEmpty then dir else Path.join [c.dir, dir]

/-- Where the assembly of a source file goes: where `wanted` says, or else to a file named after the
    source in the output directory. -/
def outputPath (c : Config) (input wanted : Text) : Text :=
  if !wanted.isEmpty then wanted
  else
    let base := Path.base input
    let name := (Text.before? base (Path.ext base)).getD base ++ lit ".s"
    let dir := c.resolveDir c.build.outputDir
    if dir.isEmpty then name else Path.join [dir, name]

end Config

end Wacc
