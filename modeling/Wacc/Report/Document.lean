/-
  The report for programs: one JSON document.
-/
import Wacc.Report.Pretty
import Wacc.Text.Json

namespace Wacc.Report

structure Detail where
  positions : Bool := false
  paths : PathMode := .auto
  notes : Bool := false
  /-- how many diagnostics are told; not positive for all -/
  max : Int := 0
  deriving Repr

def nonZero (name : Text) (n : UInt32) : List (Text × Json) :=
  if n = 0 then [] else [(name, .nat n.toNat)]

def locationJson (o : Detail) (files : FileSet) (sp : Span) : Json :=
  let (start, stop) := files.resolve sp
  .obj ([(lit "file", .str (filePath o.paths (files.get? sp.file))),
      (lit "start_byte", .nat sp.start.toNat), (lit "end_byte", .nat sp.stop.toNat)] ++
    if o.positions then
      nonZero (lit "start_line") start.line ++ nonZero (lit "start_col") start.col ++
        nonZero (lit "end_line") stop.line ++ nonZero (lit "end_col") stop.col
    else [])

def noteJson (o : Detail) (files : FileSet) (n : Note) : Json :=
  .obj [(lit "message", .str n.message), (lit "location", locationJson o files n.span)]

def diagnosticJson (o : Detail) (files : FileSet) (d : Diagnostic) : Json :=
  .obj ([(lit "severity", .str d.severity.name), (lit "code", .str d.code.id),
      (lit "class", .str d.code.category.name), (lit "message", .str d.message),
      (lit "location", locationJson o files d.span)] ++
    if o.notes && !d.notes.isEmpty then [(lit "notes", .arr (d.notes.map (noteJson o files)))] else [])

def document (o : Detail) (files : FileSet) (ds : List Diagnostic) : Text :=
  let shown := atMost o.max ds
  Json.indented (.obj [(lit "diagnostics", .arr (shown.map (diagnosticJson o files))),
    (lit "count", .nat shown.length)])

end Wacc.Report
