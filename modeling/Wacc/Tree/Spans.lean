/-
  Span rules of a tree: the root has a span inside the file, and every node lies in the file and
  inside its parent.
-/
import Wacc.Tree.Basic
import Wacc.Source.File

namespace Wacc.Tree

inductive SpanDefect where
  | nothing
  | emptyRoot (span : Span)
  | beyondContent (stop size : UInt32)
  | otherFile (kind : NodeKind) (got want : UInt32)
  | outside (child : NodeKind) (childSpan : Span) (parent : NodeKind) (parentSpan : Span)
  deriving DecidableEq, Repr

def SpanDefect.message : SpanDefect → Text
  | .nothing => lit "nil tree or file"
  | .emptyRoot s => lit "root span is empty: " ++ s.render
  | .beyondContent e n =>
    lit "root span end beyond content: " ++ decimal e.toNat ++ lit " > " ++ decimal n.toNat
  | .otherFile k g w =>
    k.name ++ lit " span file mismatch: got=" ++ decimal g.toNat ++ lit " want=" ++ decimal w.toNat
  | .outside c cs p ps =>
    c.name ++ lit " span " ++ cs.render ++ lit " is outside " ++ p.name ++ lit " span " ++ ps.render

mutual

def nodeDefect? (file : UInt32) : Tree → Option SpanDefect
  | .missing => none
  | .node k _ s cs => if s.file ≠ file then some (.otherFile k s.file file) else childDefect? file k s cs

def childDefect? (file : UInt32) (k : NodeKind) (s : Span) : List Tree → Option SpanDefect
  | [] => none
  | .missing :: cs => childDefect? file k s cs
  | .node ck ct c ccs :: cs =>
    if !s.contains c then some (.outside ck c k s)
    else match nodeDefect? file (.node ck ct c ccs) with
      | some d => some d
      | none => childDefect? file k s cs

end

def spanDefect? (t : Tree) (f : Option File) : Option SpanDefect :=
  match t, f with
  | .node k x s cs, some f =>
    if s.stop ≤ s.start then some (.emptyRoot s)
    else if f.content.length.toUInt32 < s.stop then
      some (.beyondContent s.stop f.content.length.toUInt32)
    else nodeDefect? f.id (.node k x s cs)
  | _, _ => some .nothing

end Wacc.Tree
