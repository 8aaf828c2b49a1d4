/-
  The tree of a file keeps the span rules, and syntax problems point into the file.
-/
import Wacc.Proofs.Tree.SoundProgram

namespace Wacc

variable {f : File}

theorem Scan.diagnostics_points (hlen : f.content.length < 2 ^ 32) :
    ∀ d ∈ Scan.diagnostics f.id f.content, d.IsA .lexical ∧ d.Points f := by
  intro d hd
  refine ⟨Scan.diagnostics_isA d hd, ?_⟩
  have hnotes : d.notes = [] := by
    obtain ⟨g, off, rfl⟩ := Scan.mem_diagnostics hd
    rfl
  obtain ⟨s, hs, hd⟩ := List.mem_flatMap.1 hd
  have hcovers : Covers f.id f.content 0 (steps f.id 0 f.content) := steps_covers _ _ (Nat.zero_le _)
  obtain ⟨rs, e, hsteps, -, hclean, hkinds, -⟩ := hcovers.ordered hlen
  -- the end of the file has no findings
  have hr : s ∈ rs := by
    obtain hr | he := List.mem_append.1 (hsteps ▸ hs)
    · exact hr
    · rw [List.mem_singleton.1 he, hclean] at hd
      cases hd
  obtain ⟨a, b, -, -, hb, -, hinside, -⟩ := hcovers.mem hs (hkinds s hr)
  obtain ⟨-, i, j, -, hij, hjb, hspan⟩ := hinside d hd
  have hi := toNat_offset hlen (hij.le.trans (hjb.trans hb))
  have hj := toNat_offset hlen (hjb.trans hb)
  refine ⟨?_, by simp [hnotes]⟩
  rw [hspan]
  exact ⟨rfl, by simp only [hi, hj]; exact hij.le, by simp only [hj]; exact hjb.trans hb⟩

namespace Parsed

theorem ofFile_placed (hlen : f.content.length < 2 ^ 32) :
    (∀ d ∈ (ofFile f).lexical, d.IsA .lexical ∧ d.Points f) ∧
      ∀ d ∈ (ofFile f).syntactic, d.IsA .syntactic ∧ d.Points f := by
  have hon := (Rule.program_reads f.reader_ended).1.on f (File.reader_on hlen)
  exact ⟨Scan.diagnostics_points hlen, fun d hd => hon.problems d (List.mem_reverse.1 hd)⟩

theorem tree?_laid (hlen : f.content.length < 2 ^ 32) {earlier : Nat} {t : Tree}
    (h : (ofFile f).tree? earlier = some t) : t.Laid f := by
  obtain ⟨hlex, hsyn, ht⟩ := tree?_eq_some h
  obtain ⟨t', ht', -, -, hlaid⟩ := exists_tree hlex hsyn
  exact Option.some.inj (ht'.symm.trans ht) ▸ hlaid hlen

/-- **The tree of a file keeps its span rules.**  The check of the rules finds nothing; every node has
    at least one byte; its children stand one behind the other; and a name, a base type and a literal
    without a sign are spelled by the bytes of their span. -/
theorem tree_spans (hlen : f.content.length < 2 ^ 32) {earlier : Nat} {t : Tree}
    (h : (ofFile f).tree? earlier = some t) :
    t.spanDefect? (some f) = none ∧ ∀ n ∈ t.preorder,
      n.span.start < n.span.stop ∧
      (n.children.Pairwise fun c d => c.span.stop ≤ d.span.start) ∧
      (n.kind.isCopy n.text = true → n.text = f.slice n.span.start n.span.stop) := by
  have hlaid := tree?_laid hlen h
  refine ⟨hlaid.spanDefect?_eq_none hlen, fun n hn => ?_⟩
  have hnode := hlaid.preorder n hn
  cases n with
  | missing => exact hnode.elim
  | node k text s cs =>
    obtain ⟨hw, hcopies, hrow⟩ := hnode
    refine ⟨UInt32.lt_iff_toNat_lt.2 hw.pos, Tree.Row.pairwise hrow, fun hcopy => ?_⟩
    obtain ⟨token, -, -, rfl, rfl, htext⟩ := hcopies hcopy
    exact htext

/-- A program with nodes of all sorts: with a span of their own, with the spans of their children only,
    widened later, and with a sign before a number. -/
def spread : File where
  id := 3
  path := lit "spread.wacc"
  flags := 0
  content := lit "begin # spread\n int f(pair(int, pair)[] p, bool b) is\n  if ! b then return -1 else skip fi ;
  return 1 + 2 end\n int[] a = [-7, 8] ; int i = call f(null, true) ; println a[0] * (i - 'c')\nend"

theorem tree_spans_spread : spread.content.length < 2 ^ 32 ∧ ∃ t, (ofFile spread).tree? 0 = some t ∧
    t.spanDefect? (some spread) = none ∧ t.preorder.length = 50 ∧
    ∀ n ∈ t.preorder, n.span.start < n.span.stop ∧
      (n.kind.isCopy n.text = true → n.text = spread.slice n.span.start n.span.stop) := by
  have hlen : spread.content.length < 2 ^ 32 := by decide +kernel
  have hsize : ((ofFile spread).tree? 0).map (·.preorder.length) = some 50 := by decide +kernel
  obtain ⟨t, ht, hnodes⟩ := Option.map_eq_some_iff.1 hsize
  obtain ⟨hdefect, hrules⟩ := tree_spans hlen ht
  exact ⟨hlen, t, ht, hdefect, hnodes, fun n hn => ⟨(hrules n hn).1, (hrules n hn).2.2⟩⟩

end Parsed

end Wacc
