/-
  The report for people: every diagnostic with the line it points at and a marker below it.

  The marker is as wide as the marked text is on a terminal, and stands below it; tabs before it
  are kept.
-/
import Wacc.Diagnostic.Basic
import Wacc.Report.Location
import Wacc.Report.Style
import Wacc.Text.Cluster

namespace Wacc.Report

structure Look where
  color : Bool := false
  context : Int := 0
  paths : PathMode := .auto
  notes : Bool := false
  /-- how many diagnostics are shown; not positive for all -/
  max : Int := 0
  deriving Repr

def atMost {α : Type} (max : Int) (l : List α) : List α := if 0 < max then l.take max.toNat else l

def severityStyle (s : Severity) : Style :=
  if s = .error then .strong Style.red
  else if s = .warning then .strong Style.yellow
  else .strong Style.blue

def noteStyle : Style := .strong 36

def inLine (line : Text) (col : UInt32) : Nat := min (col.toNat - 1) line.length

def padding (t : Text) : Text :=
  (Utf8.codes t).flatMap fun c => if c = 9 then [9] else Text.blanks (Width.ofChar c)

def marker (marked : Text) : Text :=
  lit "^" ++ List.replicate (Cluster.textWidth marked - 1) '~'.toUInt8

def gutter (l : Look) (width : Nat) (t : Text) : Text :=
  (Style.color Style.blue).paint l.color (Text.padLeft width ' '.toUInt8 t ++ lit " |")

/-- The line of a span, with `context` lines before it and the marker below it. -/
def snippet (l : Look) (files : FileSet) (context : Int) (sp : Span) : Text :=
  match files.get? sp.file with
  | none => []
  | some f =>
    let (start, stop) := files.resolve sp
    let number := start.line.toNat
    let width := (decimal number).length
    let before := min context.toNat (number - 1)
    let shown := (List.range (before + 1)).map (· + (number - before))
    let line := f.line start.line
    let first := inLine line start.col
    let last := if stop.line = start.line then inLine line stop.col else line.length
    (shown.flatMap fun n =>
      gutter l width (decimal n) ++ lit " " ++ f.line n.toUInt32 ++ lit "\n") ++
      gutter l width [] ++ lit " " ++ padding (line.take first) ++
      (Style.strong Style.green).paint l.color (marker ((line.drop first).take (last - first))) ++ lit "\n"

def spot (l : Look) (files : FileSet) (sp : Span) : Text :=
  let start := (files.resolve sp).1
  filePath l.paths (files.get? sp.file) ++ lit ":" ++ decimal start.line.toNat ++ lit ":" ++
    decimal start.col.toNat ++ lit ":"

def prettyNote (l : Look) (files : FileSet) (n : Note) : Text :=
  noteStyle.paint l.color (lit "note:") ++ lit " " ++ spot l files n.span ++ lit " " ++ n.message ++
    lit "\n" ++ snippet l files 0 n.span

def prettyOne (l : Look) (files : FileSet) (d : Diagnostic) : Text :=
  spot l files d.span ++ lit " " ++ (severityStyle d.severity).paint l.color d.severity.name ++
    lit " " ++ Style.bold.paint l.color d.code.id ++ lit ": " ++ d.message ++ lit "\n" ++
    snippet l files l.context d.span ++
    if l.notes then d.notes.flatMap (prettyNote l files) else []

def pretty (l : Look) (files : FileSet) (ds : List Diagnostic) : Text :=
  Text.joinWith (lit "\n") ((atMost l.max ds).map (prettyOne l files))

end Wacc.Report
