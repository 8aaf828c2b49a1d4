/-
  How reports name places in files.
-/
import Wacc.Source.File

namespace Wacc.Report

inductive PathMode where
  | auto
  /-- from the root, with the directory that relative paths start from -/
  | absolute (work : Text)
  | base
  deriving DecidableEq, Repr

def autoLimit : Nat := 40

def filePath (mode : PathMode) : Option File → Text
  | none => lit "?"
  | some f =>
    match mode with
    | .auto => if f.path.length > autoLimit then f.baseName else f.path
    | .absolute work => if Path.isAbs f.path then Path.clean f.path else Path.join [work, f.path]
    | .base => f.baseName

end Wacc.Report
