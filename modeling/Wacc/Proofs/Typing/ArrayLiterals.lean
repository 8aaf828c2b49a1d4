/-
  Array literals have array types.
-/
import Wacc.Proofs.Returns.Exact
import Wacc.Proofs.Typing.Names
import Wacc.Proofs.Typing.Program

namespace Wacc

def Value.Formed (v : Value) : Prop := ∀ span t vs, v = .array span t vs → t.isArray = true

def Stat.value? : Stat → Option Value
  | .declare _ _ _ _ v | .assign _ _ v => some v
  | _ => none

def Stat.Formed (parts : List Stat) : Prop := ∀ q ∈ parts, ∀ v, q.value? = some v → v.Formed

namespace Stat.Formed

variable {q : Stat} {qs rs : List Stat}

theorem cons (hq : ∀ v, q.value? = some v → v.Formed) (h : Formed qs) : Formed (q :: qs) :=
  List.forall_mem_cons.2 ⟨hq, h⟩

theorem single (hq : ∀ v, q.value? = some v → v.Formed) : Formed [q] := cons hq nofun

theorem append (h : Formed qs) (h' : Formed rs) : Formed (qs ++ rs) := List.forall_mem_append.2 ⟨h, h'⟩

end Stat.Formed

theorem Stat.mem_partsAll {q : Stat} {ss : List Stat} : q ∈ Stat.partsAll ss ↔ ∃ s ∈ ss, q ∈ s.parts := by
  induction ss with
  | nil => simp [Stat.partsAll]
  | cons s ss ih => simp [Stat.partsAll, ih]

namespace Typing

variable {α β : Type} {P : α → Prop} {T T' : Table} {site : Site}

theorem isArray_arrayOf (t : Ty) : t.arrayOf.isArray = true := by cases t <;> rfl

theorem arrayOf_formed (span : Span) (vs : List Value) : (arrayOf span vs).Holds Value.Formed := by
  cases vs with
  | nil =>
    refine Checked.holds_ok ?_
    rintro _ _ _ ⟨⟩
    rfl
  | cons v vs =>
    refine Checked.Holds.check (Checked.holds_ok ?_)
    rintro _ _ _ ⟨⟩
    exact isArray_arrayOf _

theorem gives_map {x : Except Fault β} {f : β → Checked α} (h : ∀ b, (f b).Holds P) :
    Gives P (do return f (← x)) := by
  cases x with
  | error => rintro _ ⟨⟩
  | ok b => exact .ok (h b)

theorem holds_map {c : Checked β} {f : β → α} (h : ∀ b, P (f b)) : (c.map f).Holds P :=
  Checked.Holds.map (P := fun _ => True) (fun _ _ => trivial) fun b _ => h b

theorem item_formed (T : Table) (sc : ScopeId) (n : Tree) : Gives Value.Formed (item T sc n) := by
  cases n with
  | missing => rw [item]; rintro _ ⟨⟩
  | node k text span cs =>
    by_cases hk : k = .arrayLit
    · subst hk
      rw [item]
      exact gives_map fun vs => Checked.Holds.bind (P := fun _ => True) (fun _ _ => trivial) fun vs _ =>
        arrayOf_formed span vs
    · rw [item_expr hk]
      exact gives_map fun e => holds_map fun e => by rintro _ _ _ ⟨⟩

theorem value_formed (T : Table) (sc : ScopeId) (n : Tree) : Gives Value.Formed (value T sc n) := by
  unfold value
  split
  · rename_i a b _
    cases expr T sc a with
    | error => rintro _ ⟨⟩
    | ok c =>
      refine gives_map fun d => ?_
      exact Checked.Holds.map2 (P := fun _ => True) (Q := fun _ => True) (fun _ _ => trivial) (fun _ _ => trivial)
        fun _ _ _ _ => nofun
  · exact gives_map fun c => holds_map fun _ => nofun
  · refine gives_map fun es => ?_
    unfold call
    split
    · exact Checked.holds_refuse
    · split_ifs
      · exact Checked.holds_refuse
      · exact holds_map fun _ => nofun
  · exact item_formed T sc n

theorem sequence_formed {ss : List Stat} (h : ∀ s ∈ ss, Stat.Formed s.parts) :
    Stat.Formed (Stat.sequence site ss).parts := by
  rw [Stat.sequence, Stat.parts]
  refine .cons (by rintro _ ⟨⟩) fun q hq => ?_
  obtain ⟨r, hr, hq⟩ := Stat.mem_partsAll.1 hq
  obtain ⟨s, hs, hr⟩ := List.mem_flatMap.1 hr
  refine h s hs q ?_
  cases s with
  | seq site rs =>
    rw [Stat.parts]
    exact List.mem_cons_of_mem _ (Stat.mem_partsAll.2 ⟨r, hr, hq⟩)
  | _ =>
    obtain rfl := List.mem_singleton.1 hr
    exact hq

def Walk.Formed : Walk → Prop
  | stat _ c => c.Holds fun s => Stat.Formed s.parts
  | stats _ cs => ∀ c ∈ cs, c.Holds fun s => Stat.Formed s.parts
  | block _ c => c.Holds fun b => Stat.Formed b.parts

theorem wordStat_formed {T : Table} {k : NodeKind} (c : Checked Expr) (hk : Tree.isWord k = true) :
    (wordStat T site k c).Holds fun s => Stat.Formed s.parts := by
  cases k <;> simp only [Tree.isWord, Bool.false_eq_true] at hk
  case free =>
    refine Checked.Holds.bind (P := fun _ => True) (fun _ _ => trivial) fun e _ => ?_
    split_ifs
    · exact Checked.holds_ok (.single (by rintro _ ⟨⟩))
    · exact Checked.holds_fails
  case «return» =>
    unfold wordStat ret
    split_ifs
    · exact Checked.holds_refuse
    · exact holds_map fun e => .single (by rintro _ ⟨⟩)
  all_goals exact holds_map fun e => .single (by rintro _ ⟨⟩)

/-- **Statements are typed as formed ones.** -/
theorem Walks.formed {sc : ScopeId} {w : Walk} (h : Walks sc w T T') : w.Formed := by
  induction h with
  | skip => exact Checked.holds_ok (.single nofun)
  | declare _ _ _ _ hc hd =>
    obtain ⟨type, d, -, -, hs⟩ := declare_ok hd
    refine hs.weaken ?_
    rintro _ ⟨u, rfl, rfl, -⟩
    refine .single ?_
    rintro _ ⟨⟩
    exact value_formed _ _ _ _ hc u rfl
  | assign _ _ _ _ hd =>
    refine Checked.Holds.bind2 (P := fun _ => True) (fun _ _ => trivial) (value_formed _ _ _ _ hd) fun x y _ hy => ?_
    split_ifs
    · refine Checked.holds_ok (.single ?_)
      rintro _ ⟨⟩
      exact hy
    · exact Checked.holds_fails
  | read =>
    refine Checked.Holds.bind (P := fun _ => True) (fun _ _ => trivial) fun l _ => ?_
    split_ifs
    · exact Checked.holds_ok (.single nofun)
    · exact Checked.holds_fails
  | word _ hk => exact wordStat_formed _ hk
  | ifThen _ _ _ _ ih | «while» _ _ _ _ ih =>
    exact Checked.Holds.map2 (P := fun _ => True) (fun _ _ => trivial) ih fun e b _ hb => .cons nofun hb
  | ifElse _ _ _ _ _ iha ihb =>
    exact Checked.Holds.map3 (P := fun _ => True) (fun _ _ => trivial) iha ihb fun e b b' _ hb hb' =>
      .cons nofun (hb.append hb')
  | «for» _ _ _ _ _ _ _ ihi ihs ihb =>
    refine Checked.Holds.map4 (Q := fun _ => True) ihi (fun _ _ => trivial) ihs ihb fun i e t b hi _ ht hb => ?_
    exact .cons nofun ((hi.append hb).append ht)
  | scope _ ih => exact ih.map fun b hb => .cons nofun hb
  | seq _ ih => exact Checked.Holds.check ((all_holds ih).map fun ss hss => sequence_formed hss)
  | nil => exact nofun
  | cons _ _ ih ihs => exact List.forall_mem_cons.2 ⟨ih, ihs⟩
  | block _ _ _ _ ih =>
    refine ih.map fun s hs => ?_
    rw [Block.parts]
    exact hs

/-! ## Programs -/

theorem Bodies.formed {ns : List Tree} {hs : List Header} {cs : List (Checked Func)} (h : Bodies ns hs cs T T') :
    ∀ c ∈ cs, c.Holds fun f => Stat.Formed f.body.parts := by
  induction h with
  | nil => exact nofun
  | fresh _ hc _ ih => exact List.forall_mem_cons.2 ⟨Checked.Holds.check (hc.formed.map fun b hb => hb), ih⟩
  | taken _ ih => exact List.forall_mem_cons.2 ⟨Checked.holds_bad, ih⟩

end Typing

end Wacc
