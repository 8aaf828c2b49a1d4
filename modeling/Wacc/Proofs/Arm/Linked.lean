/-
  Programs in assembly are closed.

  The code of a program is cut into sections: the main program, its functions and its routines.  No label is
  defined twice, all that is referred to is defined or a function of the C library, branches to places stay
  inside a section, and the routines are those that the main program and the functions need.
-/
import Wacc.Proofs.Arm.Links
import Wacc.Proofs.Text.Basic
import Wacc.Proofs.Typing.Accepted

namespace Wacc.Arm

/-! ## Spelling -/

def Routine.ofName? (t : Text) : Option Routine :=
  [throwOverflow, checkDivideByZero, checkArrayBounds, checkNullPointer, throwRuntime, printString, printInt,
    printBool, printChar, printReference, printLn, readInt, readChar, readString, freePair].find? (·.name == t)

theorem Routine.ofName?_name (r : Routine) : ofName? r.name = some r := by cases r <;> rfl

theorem Routine.name_injective : Function.Injective Routine.name := fun r r' h => by
  have := r.ofName?_name
  rw [h, ofName?_name] at this
  exact (Option.some.inj this).symm

theorem Routine.name_eq (r : Routine) : ∃ t, r.name = 112 :: 95 :: t := by cases r <;> exact ⟨_, rfl⟩

theorem Label.render_injective : Function.Injective Label.render := by
  have hmain : lit "main" = [109, 97, 105, 110] := rfl
  have hfunc : lit "f_" = [102, 95] := rfl
  have hplace : lit "L" = [76] := rfl
  have hconst : lit "msg_" = [109, 115, 103, 95] := rfl
  intro l l' h
  cases l with
  | main => cases l' with
    | routine r => obtain ⟨t, ht⟩ := r.name_eq; simp [render, hmain, ht] at h
    | main => rfl
    | _ => simp [render, hmain, hfunc, hplace, hconst] at h
  | func n => cases l' with
    | routine r => obtain ⟨t, ht⟩ := r.name_eq; simp [render, hfunc, ht] at h
    | func m => rw [List.append_cancel_left h]
    | _ => simp [render, hmain, hfunc, hplace, hconst] at h
  | place n => cases l' with
    | routine r => obtain ⟨t, ht⟩ := r.name_eq; simp [render, hplace, ht] at h
    | place m => rw [decimal_injective (List.append_cancel_left h)]
    | _ => simp [render, hmain, hfunc, hplace, hconst] at h
  | const n => cases l' with
    | routine r => obtain ⟨t, ht⟩ := r.name_eq; simp [render, hconst, ht] at h
    | const m => rw [decimal_injective (List.append_cancel_left h)]
    | _ => simp [render, hmain, hfunc, hplace, hconst] at h
  | routine r =>
    cases l' with
    | routine r' => rw [Routine.name_injective h]
    | _ => obtain ⟨t, ht⟩ := r.name_eq; simp [render, hmain, hfunc, hplace, hconst, ht] at h

theorem Label.render_ne_name (l : Label) (e : Extern) : l.render ≠ e.name := by
  have hmain : lit "main" ≠ e.name := by cases e <;> decide
  have hlead : e.name.head? ≠ some 76 ∧ e.name.take 2 ∉ [[102, 95], [109, 115], [112, 95]] := by
    cases e <;> decide
  have hfunc : lit "f_" = [102, 95] := rfl
  have hconst : lit "msg_" = [109, 115, 103, 95] := rfl
  intro h
  rw [← h] at hlead
  cases l with
  | main => exact hmain h
  | func n => exact hlead.2 (by simp [render, hfunc])
  | place n => exact hlead.1 rfl
  | const n => exact hlead.2 (by simp [render, hconst])
  | routine r =>
    obtain ⟨t, ht⟩ := r.name_eq
    exact hlead.2 (by simp [render, ht])

/-! ## Sections -/

structure Section where
  head : Label
  body : List Line

namespace Section

def lines (c : Section) : List Line := .label c.head :: c.body

/-- Only places are defined inside a section, and branches to places stay inside. -/
structure Own (c : Section) : Prop where
  labels : ∀ l ∈ labelsOf c.body, ∃ n, l = .place n
  places : ∀ n, .label (.place n) ∈ refsOf c.body → .place n ∈ labelsOf c.body

end Section

variable {A : Set Callee} {s s' s'' : Stage} {out out' : List Line}

theorem Piece.own {c : Section} (hA : ∀ n, .label (.place n) ∉ A) (h : Piece A [] s c.body s') : c.Own := by
  refine ⟨fun l hl => ?_, fun n hn => ?_⟩
  · obtain ⟨n, -, rfl⟩ := List.mem_map.1 (h.labels.subset hl)
    exact ⟨n, rfl⟩
  · rcases h.refs _ hn with hA' | hs | ⟨l, hl, hl'⟩
    · exact absurd hA' (hA n)
    · exact hs.elim
    · cases hl'
      exact hl

structure Built (A : Set Callee) (hs : List Label) (s : Stage) (cs : List Section) (s' : Stage) : Prop where
  heads : cs.map (·.head) = hs
  own : ∀ c ∈ cs, c.Own
  piece : Piece A hs s (cs.flatMap Section.lines) s'

namespace Built

variable {hs hs' : List Label} {c : Section} {cs cs' : List Section}

theorem nil (h : s.Sane) : Built A [] s [] s := ⟨rfl, by simp, .still h rfl rfl rfl rfl rfl rfl⟩

theorem cons (hA : ∀ n, .label (.place n) ∉ A) (h : Piece A [] s c.body s') (h' : Built A hs s' cs s'') :
    Built A (c.head :: hs) s (c :: cs) s'' :=
  ⟨by rw [List.map_cons, h'.heads], List.forall_mem_cons.2 ⟨h.own hA, h'.own⟩, (h.label c.head).append h'.piece⟩

end Built

namespace Gen

variable {T : Table} {a : Unit} {p : Program}

/-! ## The main program and the functions -/

theorem section_of_label {l : Label} {f : Unit → Gen Unit} (hf : Makes A [] (f ()))
    (h : (label l >>= f) T s = .ok (a, out, s')) (hs : s.Sane) :
    ∃ c : Section, c.head = l ∧ out = c.lines ∧ Piece A [] s c.body s' := by
  obtain ⟨_, o, s1, o', ⟨⟩, hrun, rfl⟩ := bind_eq_ok h
  exact ⟨⟨l, o'⟩, rfl, rfl, hf T s a o' s' hrun hs⟩

theorem mainBody_section {body : Stat} (hA : Calls T A) (hb : body.Typed T Table.global)
    (h : mainBody body T s = .ok (a, out, s')) (hs : s.Sane) :
    ∃ c : Section, c.head = .main ∧ out = c.lines ∧ Piece A [] s c.body s' := by
  refine section_of_label ?_ h hs
  exact (Law.pushReg makes_law _).andThen fun _ => (enter_makes _).andThen fun _ => (stat_makes hb A hA).andThen fun _ =>
    (leave_makes _).andThen fun _ => (Makes.emit rfl).andThen fun _ => popReturn_makes.andThen fun _ =>
    .lines rfl (by simp) (by simp)

theorem function_section {f : Func} (hA : Calls T A) (hf : f.Typed T) (h : function f T s = .ok (a, out, s'))
    (hs : s.Sane) : ∃ c : Section, c.head = .func f.name ∧ out = c.lines ∧ Piece A [] s c.body s' := by
  unfold function at h
  rw [run_bind rfl, run_bind rfl] at h
  have hrest : Makes A [] (do pushReg .lr; block f.body; lines [.pool]) := by
    refine (Law.pushReg makes_law _).andThen fun _ => ?_
    have hbody := stat_makes hf.body.2
    cases hblock : f.body with
    | mk site i b =>
      rw [hblock] at hbody
      exact (block_makes hbody hA site i).andThen fun _ => .lines rfl (by simp) (by simp)
  obtain ⟨c, hc, rfl, hpiece⟩ := section_of_label hrest h ⟨hs.shared, hs.nodup, hs.complete⟩
  -- the function starts with an empty stack, which has no part in what is defined
  exact ⟨c, hc, rfl, hpiece.of_stack rfl rfl rfl⟩

theorem functions_built {fs : List Func} (hA : Calls T A) (hplaces : ∀ n, .label (.place n) ∉ A)
    (hfs : ∀ f ∈ fs, f.Typed T) (h : functions fs T s = .ok (a, out, s')) (hs : s.Sane) :
    ∃ cs, out = cs.flatMap Section.lines ∧ Built A (fs.map (.func ·.name)) s cs s' := by
  induction fs generalizing s out with
  | nil =>
    cases h
    exact ⟨[], rfl, .nil hs⟩
  | cons f fs ih =>
    obtain ⟨hf, hfs⟩ := List.forall_mem_cons.1 hfs
    obtain ⟨_, o, s1, o', hrun, hrest, rfl⟩ := bind_eq_ok h
    obtain ⟨c, hc, rfl, hpiece⟩ := function_section hA hf hrun hs
    obtain ⟨cs, rfl, hcs⟩ := ih hfs hrest hpiece.sane
    refine ⟨c :: cs, rfl, ?_⟩
    rw [List.map_cons, ← hc]
    exact .cons hplaces hpiece hcs

/-! ## Routines -/

theorem refs_body (r : Routine) (n : Nat) : ∀ c ∈ refsOf ((r.body n).map .instr), (∃ e, c = .extern_ e) ∨
    (∃ i < r.messages.length, c = .label (.const (n + i))) ∨ ∃ q ∈ r.needs, c = .label (.routine q) := by
  cases r <;> simp [Routine.body, Routine.throwIf, Routine.printWith, Routine.readWith, Routine.chars, Routine.flush,
    Routine.enter, Routine.leave, Routine.lib, Instr.refs, Routine.messages, Routine.needs]

theorem routine_piece {r : Routine} (hs : s.Sane) (hr : r ∈ s.used) :
    Piece A [] s ((r.body s.consts.length).map .instr) { s with consts := s.consts ++ r.messages } := by
  have hrefs := refs_body r s.consts.length
  refine ⟨⟨fun t n hn => ?_, hs.nodup, hs.complete⟩, le_rfl, by simp, ?_, fun c hc => .inr (.inl ?_), fun q => ?_⟩
  · have ht := hs.shared t n hn
    rw [List.getElem?_append_left (List.getElem?_eq_some_iff.1 ht).1, ht]
  · rw [labelsOf_plain (by simp [Line.isLabel])]
    simp
  · rcases hrefs c hc with ⟨e, rfl⟩ | ⟨i, hi, rfl⟩ | ⟨q, hq, rfl⟩
    · trivial
    · simpa [Stage.Has] using hi
    · exact hs.complete r hr q hq
  · refine ⟨.inl, fun h => h.elim id ?_⟩
    rintro ⟨q', hq', hreach⟩
    exact hs.complete.reaches (hs.complete r hr q' (Routine.refers_iff.1 ⟨_, hq'⟩)) hreach

theorem routines_built {rs : List Routine} (hplaces : ∀ n, .label (.place n) ∉ A)
    (h : routines rs T s = .ok (a, out, s')) (hs : s.Sane) (hrs : rs ⊆ s.used) :
    s'.used = s.used ∧ ∃ cs, out = cs.flatMap Section.lines ∧ Built A (rs.map .routine) s cs s' := by
  induction rs generalizing s out with
  | nil =>
    cases h
    exact ⟨rfl, [], rfl, .nil hs⟩
  | cons r rs ih =>
    obtain ⟨hr, hrs⟩ := List.cons_subset.1 hrs
    obtain ⟨_, o, s1, o', ⟨⟩, hrest, rfl⟩ := bind_eq_ok h
    have hpiece := routine_piece (A := A) hs hr
    obtain ⟨hused, cs, rfl, hcs⟩ := ih hrest hpiece.sane hrs
    let c : Section := ⟨.routine r, (r.body s.consts.length).map .instr⟩
    exact ⟨hused, c :: cs, rfl, Built.cons (c := c) hplaces hpiece hcs⟩

/-! ## Programs -/

def functionsOf (p : Program) : Set Callee := {c | ∃ f ∈ p.funcs, c = .label (.func f.name)}

theorem calls_functionsOf (hp : p.Typed) : Calls p.table (functionsOf p) := by
  intro id g hg
  obtain ⟨f, hf, -, hname, -⟩ := Typing.mem_funcs_of_func? hp hg
  exact ⟨f, hf, by rw [hname]⟩

/-- **The code of a program is made of sections**: the main program and the functions, and then the routines
    that these need. -/
theorem program_built (hp : p.Typed) (h : program p p.table {} = .ok (a, out, s')) :
    ∃ code runtime s1, out = code.flatMap Section.lines ++ runtime.flatMap Section.lines ∧
      Built (functionsOf p) (.main :: p.funcs.map (.func ·.name)) {} code s1 ∧
      Built (functionsOf p) (s'.used.map .routine) s1 runtime s' ∧ s'.used = s1.used := by
  have hA := calls_functionsOf hp
  have hplaces : ∀ n, .label (.place n) ∉ functionsOf p := by
    rintro n ⟨f, -, ⟨⟩⟩
  obtain ⟨_, o1, s1, o2, hmain, hrest, rfl⟩ := bind_eq_ok h
  obtain ⟨_, o2, s2, o3, hfuncs, hlast, rfl⟩ := bind_eq_ok hrest
  rw [run_bind rfl] at hlast
  obtain ⟨c, hc, rfl, hpiece⟩ := mainBody_section hA hp.body hmain ⟨by simp, List.nodup_nil, fun _ h => nomatch h⟩
  obtain ⟨cs, rfl, hcs⟩ := functions_built hA hplaces hp.funcs hfuncs hpiece.sane
  obtain ⟨hused, rs, rfl, hrs⟩ := routines_built hplaces hlast hcs.piece.sane (fun _ h => h)
  refine ⟨c :: cs, rs, s2, ?_, hc ▸ .cons hplaces hpiece hcs, hused ▸ hrs, hused⟩
  rw [List.flatMap_cons, List.append_assoc]

end Gen

/-! ## Assembly -/

theorem labelsOf_constants (texts : List Text) (k : Nat) :
    labelsOf ((texts.zipIdx k).flatMap fun (t, n) => constLines n t) =
      (List.range' k texts.length).map .const := by
  induction texts generalizing k with
  | nil => rfl
  | cons t ts ih =>
    rw [List.zipIdx_cons, List.flatMap_cons, labelsOf_append, ih, List.length_cons, List.range'_succ]
    rfl

theorem refsOf_constants (texts : List Text) (k : Nat) :
    refsOf ((texts.zipIdx k).flatMap fun (t, n) => constLines n t) = [] := by
  induction texts generalizing k with
  | nil => rfl
  | cons t ts ih =>
    rw [List.zipIdx_cons, List.flatMap_cons, refsOf_append, ih]
    rfl

namespace Assembly

/-- A program in assembly that is closed: its lines are constants and sections, and what is referred to is
    there. -/
structure Linked (p : Program) (a : Assembly) (texts : List Text) (code routines : List Section) : Prop where
  lines : a.lines = dataLines texts ++ [.text, .global .main] ++
    (code.flatMap Section.lines ++ routines.flatMap Section.lines)
  heads : code.map (·.head) = .main :: p.funcs.map (.func ·.name)
  runtime : routines.map (·.head) = a.runtime.map .routine
  /-- branches to places stay inside a section -/
  own : ∀ c ∈ code ++ routines, c.Own
  once : ((labelsOf a.lines).map Label.render).Nodup
  closed : ∀ c ∈ refsOf a.lines, (∃ e, c = .extern_ e) ∨ ∃ l ∈ labelsOf a.lines, c = .label l
  apart : ∀ l ∈ labelsOf a.lines, ∀ e : Extern, l.render ≠ e.name
  nodup : a.runtime.Nodup
  needed : ∀ r, r ∈ a.runtime ↔
    ∃ q, .label (.routine q) ∈ refsOf (code.flatMap Section.lines) ∧ q.Reaches r

variable {p : Program}

theorem nodup_names (hp : p.Typed) : (p.funcs.map (·.name)).Nodup := by
  have hnames : p.funcs.map (·.name) = p.table.funcs.toList.map (·.name) := by
    refine List.ext_getElem (by simpa using Typing.length_funcs hp) fun i h1 h2 => ?_
    have hi : i < p.funcs.length := by simpa using h1
    obtain ⟨g, hg, hname, -⟩ := (hp.funcs _ (List.getElem_mem hi)).signature
    rw [Typing.func?_getElem hp hi] at hg
    have hget := (Array.getElem?_eq_some_iff.1 hg).2
    simp [← hname, ← hget]
  rw [hnames]
  exact hp.wf.nodup

theorem nodup_labels {names : List Text} {rs : List Routine} (hnames : names.Nodup) (hrs : rs.Nodup) (k n : Nat) :
    ((List.range' 0 k).map Label.const ++ ((Label.main :: names.map Label.func) ++ rs.map Label.routine ++
      (List.range' 0 n).map Label.place)).Nodup := by
  have hfuncs : (names.map Label.func).Nodup := hnames.map fun _ _ h => Label.func.inj h
  have hroutines : (rs.map Label.routine).Nodup := hrs.map fun _ _ h => Label.routine.inj h
  have hconsts : ((List.range' 0 k).map Label.const).Nodup :=
    List.Nodup.map (fun _ _ h => Label.const.inj h) List.nodup_range'
  have hplaces : ((List.range' 0 n).map Label.place).Nodup :=
    List.Nodup.map (fun _ _ h => Label.place.inj h) List.nodup_range'
  simp only [List.nodup_append, List.nodup_cons, hfuncs, hroutines, hconsts, hplaces, true_and]
  grind

theorem linked_of_typed (hp : p.Typed) {a : Assembly} (h : ofProgram p = .ok a) :
    ∃ texts code routines, a.Linked p texts code routines := by
  unfold ofProgram at h
  split at h
  · cases h
  case _ u out s hrun =>
    cases h
    obtain ⟨code, routines, s1, rfl, hcode, hroutines, hused⟩ := Gen.program_built hp hrun
    have hpiece := hcode.piece.append hroutines.piece
    have hdata : labelsOf (dataLines s.consts) = (List.range' 0 s.consts.length).map .const :=
      labelsOf_constants s.consts 0
    have hsilent : refsOf (dataLines s.consts) = [] := refsOf_constants s.consts 0
    have hsane := hpiece.sane
    have hlabels : (labelsOf (dataLines s.consts ++ [.text, .global .main] ++
        (code.flatMap Section.lines ++ routines.flatMap Section.lines))).Perm
        ((List.range' 0 s.consts.length).map .const ++ ((.main :: p.funcs.map (.func ·.name)) ++
          s.used.map .routine ++ (List.range' 0 s.places).map .place)) := by
      rw [labelsOf_append, labelsOf_append, hdata, List.append_assoc]
      exact hpiece.labels.append_left _
    have hnodup := nodup_labels (nodup_names hp) hsane.nodup s.consts.length s.places
    rw [List.map_map] at hnodup
    refine ⟨s.consts, code, routines, rfl, hcode.heads, hroutines.heads, ?_, ?_, ?_, ?_, hsane.nodup, ?_⟩
    · exact List.forall_mem_append.2 ⟨hcode.own, hroutines.own⟩
    · exact (hlabels.nodup_iff.2 hnodup).map Label.render_injective
    · intro c hc
      rw [refsOf_append, refsOf_append, hsilent] at hc
      rcases hpiece.refs c hc with ⟨f, hf, rfl⟩ | hhas | ⟨l, hl, rfl⟩
      · refine .inr ⟨_, hlabels.symm.subset (List.mem_append_right _ ?_), rfl⟩
        exact List.mem_append_left _ (List.mem_append_left _ (List.mem_cons_of_mem _ (List.mem_map_of_mem hf)))
      · match c, hhas with
        | .extern_ e, _ => exact .inl ⟨e, rfl⟩
        | .label (.const n), hn =>
          replace hn : n < s.consts.length := hn
          exact .inr ⟨_, hlabels.symm.subset (by simpa using hn), rfl⟩
        | .label (.routine r), hr =>
          replace hr : r ∈ s.used := hr
          exact .inr ⟨_, hlabels.symm.subset (by simpa using hr), rfl⟩
      · exact .inr ⟨l, by rw [labelsOf_append]; exact List.mem_append_right _ hl, rfl⟩
    · exact fun l _ e => l.render_ne_name e
    · intro r
      rw [hused, hcode.piece.used]
      simp

/-- **Programs in assembly are closed and unambiguous.**  The code of an accepted program is generated; no label
    is defined twice; all that is referred to is defined or a function of the C library; branches to places stay
    inside the main program, function or routine that they are in; and the routines are those that the main program
    and the functions refer to, with what these need, each of them once. -/
theorem linked_of_program (f : File) (p : Program) (hlen : f.content.length < 2 ^ 32) (hp : f.program? = some p) :
    ∃ a, ofProgram p = .ok a ∧ ∃ texts code routines, a.Linked p texts code routines := by
  obtain ⟨⟨n, hn, hb⟩, -⟩ := File.bounded_of_program hlen hp
  obtain ⟨a, ha⟩ := emitted_of_bounded hb hn
  exact ⟨a, ha, linked_of_typed hb.typed ha⟩

/-- Two functions, of which one is not called, a loop, equal strings, and a division. -/
def shares : File where
  id := 0
  path := lit "shares.wacc"
  flags := 0
  content := lit "begin
    int half(int n) is
      if n < 2 then return 0 else return n / 2 fi
    end
    bool main(pair(int, int) p) is
      int x = fst p ;
      return x == 1
    end
    int k = 64 ;
    while k > 0 do print \"k\" ; k = call half(k) done ;
    println \"k\"
  end"

/-- One of its functions is called like the main program, and what complains about a division and about a null
    pair needs the same routines. -/
theorem linked_of_program_shares : ∃ p a texts code routines, shares.program? = some p ∧ ofProgram p = .ok a ∧
    a.Linked p texts code routines ∧ code.map (·.head) = [.main, .func (lit "half"), .func (lit "main")] ∧
    a.runtime = [.printString, .printLn, .checkDivideByZero, .throwRuntime, .checkNullPointer] := by
  have hshape : shares.program?.any (fun p => p.funcs.map (·.name) = [lit "half", lit "main"] ∧
      (ofProgram p).toOption.any (·.runtime =
        [.printString, .printLn, .checkDivideByZero, .throwRuntime, .checkNullPointer])) = true := by
    decide +kernel
  obtain ⟨p, hp, hshape⟩ := (Option.any_eq_true _ _).1 hshape
  obtain ⟨hnames, hruntime⟩ := of_decide_eq_true hshape
  obtain ⟨a, ha, texts, code, routines, hlinked⟩ := linked_of_program shares p (by decide +kernel) hp
  rw [ha] at hruntime
  refine ⟨p, a, texts, code, routines, hp, ha, hlinked, ?_, of_decide_eq_true hruntime⟩
  have hfuncs : p.funcs.map (Label.func ·.name) = (p.funcs.map (·.name)).map .func := List.map_map.symm
  rw [hlinked.heads, hfuncs, hnames]
  rfl

end Assembly

end Wacc.Arm
