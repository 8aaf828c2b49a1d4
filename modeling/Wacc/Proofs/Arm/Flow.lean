/-
  Code with places inside.

  `Owns n out n'` says that the labels of the lines `out` are places with different numbers from `n` up
  to `n'`.  `Flow d n out r n'` says what a walk does on such lines: from the depth `d`
  it leads to `r`, which is nothing if control does not get to the end, and where control does not
  get to the start it changes nothing.
-/
import Wacc.Proofs.Arm.Walk

namespace Wacc.Arm

/-! ## Places of lines -/

def labelsOf (out : List Line) : List Label :=
  out.filterMap fun
    | .label l => some l
    | _ => none

/-- The labels of the lines are places with different numbers from `n` up to `n'`, and all functions
    have names. -/
structure Owns (n : Nat) (out : List Line) (n' : Nat) : Prop where
  le : n ≤ n'
  nodup : (labelsOf out).Nodup
  places : ∀ l ∈ labelsOf out, ∃ m, l = .place m ∧ n ≤ m ∧ m < n'
  named : ∀ l ∈ out, l.InCode

@[simp] theorem labelsOf_append (o o' : List Line) : labelsOf (o ++ o') = labelsOf o ++ labelsOf o' :=
  List.filterMap_append

@[simp] theorem labelsOf_nil : labelsOf [] = [] := rfl

@[simp] theorem labelsOf_label (l : Label) (o : List Line) : labelsOf (.label l :: o) = l :: labelsOf o := rfl

@[simp] theorem labelsOf_instr (i : Instr) (o : List Line) : labelsOf (.instr i :: o) = labelsOf o := rfl

theorem labelsOf_plain {o : List Line} (h : ∀ l ∈ o, l.isLabel = false) : labelsOf o = [] := by
  refine List.filterMap_eq_nil_iff.2 fun l hl => ?_
  have := h l hl
  cases l <;> first | rfl | cases this

namespace Owns

variable {n n' n'' : Nat} {o o' : List Line}

theorem append (h : Owns n o n') (h' : Owns n' o' n'') : Owns n (o ++ o') n'' := by
  have hle := h.le
  have hle' := h'.le
  refine ⟨by omega, ?_, fun l hl => ?_, fun l hl => ?_⟩
  · rw [labelsOf_append]
    refine List.nodup_append.2 ⟨h.nodup, h'.nodup, fun l hl l' hl' e => ?_⟩
    obtain ⟨m, rfl, -, hm⟩ := h.places l hl
    obtain ⟨m', rfl, hm', -⟩ := h'.places l' hl'
    cases e
    omega
  · rw [labelsOf_append] at hl
    rcases List.mem_append.1 hl with hl | hl
    · obtain ⟨m, rfl, hm, hm'⟩ := h.places l hl
      exact ⟨m, rfl, hm, by omega⟩
    · obtain ⟨m, rfl, hm, hm'⟩ := h'.places l hl
      exact ⟨m, rfl, by omega, hm'⟩
  · exact (List.mem_append.1 hl).elim (h.named l) (h'.named l)

theorem plain (hp : ∀ l ∈ o, l.isLabel = false) (hn : ∀ l ∈ o, l.InCode) (n : Nat) : Owns n o n := by
  have hl := labelsOf_plain hp
  exact ⟨le_rfl, by simp [hl], by simp [hl], hn⟩

theorem perm (h : Owns n o n') (hl : (labelsOf o').Perm (labelsOf o)) (hn : ∀ l ∈ o', l.InCode) :
    Owns n o' n' :=
  ⟨h.le, hl.nodup_iff.2 h.nodup, fun l hl' => h.places l (hl.subset hl'), hn⟩

theorem place (n : Nat) : Owns n [.label (.place n)] (n + 1) :=
  ⟨by omega, by simp, by simp, by simp [Line.InCode, Label.Named]⟩

end Owns

/-! ## Walks over lines with places -/

def Fresh (places : Nat → Option Int) (n : Nat) : Prop := ∀ m, n ≤ m → places m = none

/-- What a walk does on lines whose places have the numbers from `n` up to `n'`. -/
structure Flow (d : Int) (n : Nat) (out : List Line) (r : Option Int) (n' : Nat) : Prop
    extends Owns n out n' where
  reach : ∀ ps, Fresh ps n → ∃ ps', walk ⟨some d, ps⟩ out = some ⟨r, ps'⟩ ∧ Fresh ps' n' ∧
    ∀ m < n, ps' m = ps m
  dead : ∀ ps, Fresh ps n → walk ⟨none, ps⟩ out = some ⟨none, ps⟩

def depthIf (d : Int) (falls : Bool) : Option Int := if falls then some d else none

variable {ps : Nat → Option Int}

theorem Fresh.mono {m n : Nat} (h : Fresh ps m) (hn : m ≤ n) : Fresh ps n :=
  fun k hk => h k (hn.trans hk)

theorem Fresh.update {n k : Nat} {d : Int} (h : Fresh ps n) (hk : k < n) :
    Fresh (Function.update ps k (some d)) n := by
  intro m hm
  rw [Function.update_of_ne (by omega)]
  exact h m hm

theorem Straight.flow {d d' : Int} {o : List Line} (h : Straight d o d') (n : Nat) :
    Flow d n o (some d') n :=
  ⟨.plain h.plain h.named n, fun ps hps => ⟨ps, h.walk ps, hps, fun _ _ => rfl⟩,
    fun _ _ => walk_plain h.plain⟩

namespace Flow

variable {d d' d'' : Int} {n n' n'' : Nat} {o o' : List Line} {r : Option Int}
  {ps : Nat → Option Int} {k : Nat} {c y : List Line}

theorem trans (h : Flow d n o (some d') n') (h' : Flow d' n' o' r n'') : Flow d n (o ++ o') r n'' := by
  refine ⟨h.toOwns.append h'.toOwns, fun ps hps => ?_, fun ps hps => ?_⟩
  · obtain ⟨ps1, hw1, hf1, hk1⟩ := h.reach ps hps
    obtain ⟨ps2, hw2, hf2, hk2⟩ := h'.reach ps1 hf1
    refine ⟨ps2, by rw [walk_append, hw1, Option.bind_some, hw2], hf2, fun m hm => ?_⟩
    rw [hk2 m (hm.trans_le h.le), hk1 m hm]
  · rw [walk_append, h.dead ps hps, Option.bind_some, h'.dead ps (hps.mono h.le)]

theorem stop (h : Flow d n o none n') (h' : Flow d' n' o' r n'') : Flow d n (o ++ o') none n'' := by
  refine ⟨h.toOwns.append h'.toOwns, fun ps hps => ?_, fun ps hps => ?_⟩
  · obtain ⟨ps1, hw1, hf1, hk1⟩ := h.reach ps hps
    exact ⟨ps1, by rw [walk_append, hw1, Option.bind_some, h'.dead ps1 hf1], hf1.mono h'.le, hk1⟩
  · rw [walk_append, h.dead ps hps, Option.bind_some, h'.dead ps (hps.mono h.le)]

theorem seq {f g : Bool} (h : Flow d n o (depthIf d' f) n') (h' : Flow d' n' o' (depthIf d'' g) n'') :
    Flow d n (o ++ o') (depthIf d'' (f && g)) n'' := by
  cases f with
  | true => exact h.trans h'
  | false => exact h.stop h'

theorem walk_branch {c : List Line} (hc : Straight d c d) (hk : ps k = none) :
    walk ⟨some d, ps⟩ (c ++ [.instr (.branch .eq (.place k))]) =
      some ⟨some d, Function.update ps k (some d)⟩ := by
  rw [walk_append, hc.walk, Option.bind_some]
  simp [Arm.walk, Line.walk, Instr.walk, Label.place?, Point.arrive, hk]

theorem walk_branch_dead {c : List Line} (hc : Straight d c d) :
    walk ⟨none, ps⟩ (c ++ [.instr (.branch .eq (.place k))]) = some ⟨none, ps⟩ :=
  walk_plain fun l hl => by
    rcases List.mem_append.1 hl with hl | hl
    · exact hc.plain l hl
    · rw [List.mem_singleton.1 hl]; rfl

theorem walk_place (f : Bool) (hk : ps k = some d) :
    walk ⟨depthIf d f, ps⟩ [.label (.place k)] = some ⟨some d, ps⟩ := by
  cases f <;> simp [Arm.walk, Line.walk, Label.place?, Point.arrive, hk, depthIf]

theorem walk_place_below (ps : Nat → Option Int) (k : Nat) :
    walk ⟨none, ps⟩ [.label (.place k)] = some ⟨ps k, ps⟩ := by
  simp [Arm.walk, Line.walk, Label.place?]

theorem walk_place_dead (hk : ps k = none) : walk ⟨none, ps⟩ [.label (.place k)] = some ⟨none, ps⟩ := by
  rw [walk_place_below, hk]

theorem ifThen {f : Bool} (hc : Straight d c d) (hy : Flow d (n + 1) y (depthIf d f) n') :
    Flow d n ((c ++ [.instr (.branch .eq (.place n))]) ++ (y ++ [.label (.place n)])) (some d) n' := by
  have howns : Owns n ((c ++ [.instr (.branch .eq (.place n))]) ++ (y ++ [.label (.place n)])) n' := by
    refine ((Owns.place n).append hy.toOwns).perm ?_ ?_
    · simp only [labelsOf_append, labelsOf_plain hc.plain, labelsOf_instr, labelsOf_nil, labelsOf_label,
        List.nil_append]
      exact List.perm_append_comm
    · simp only [List.forall_mem_append, List.forall_mem_singleton]
      exact ⟨⟨hc.named, trivial⟩, hy.named, trivial⟩
  refine ⟨howns, fun ps hps => ?_, fun ps hps => ?_⟩
  · have hf : Fresh (Function.update ps n (some d)) (n + 1) := (hps.mono (Nat.le_succ n)).update (by omega)
    obtain ⟨ps1, hw1, hf1, hk1⟩ := hy.reach _ hf
    have hn : ps1 n = some d := by rw [hk1 n (by omega), Function.update_self]
    refine ⟨ps1, ?_, hf1, fun m hm => ?_⟩
    · rw [walk_append, walk_branch hc (hps n le_rfl), Option.bind_some, walk_append, hw1, Option.bind_some,
        walk_place f hn]
    · rw [hk1 m (by omega), Function.update_of_ne (by omega)]
  · rw [walk_append, walk_branch_dead hc, Option.bind_some, walk_append,
      hy.dead ps (hps.mono (Nat.le_succ n)), Option.bind_some, walk_place_dead (hps n le_rfl)]

theorem ifElse {c y z : List Line} {f g : Bool} (hc : Straight d c d)
    (hy : Flow d (n + 2) y (depthIf d f) n') (hz : Flow d n' z (depthIf d g) n'') :
    Flow d n ((c ++ [.instr (.branch .eq (.place (n + 1)))]) ++ (y ++
      ([.instr (.branch .always (.place n))] ++ ([.label (.place (n + 1))] ++ (z ++ [.label (.place n)])))))
      (depthIf d (f || g)) n'' := by
  have hle := hy.le
  have hle' := hz.le
  have howns : Owns n ((c ++ [.instr (.branch .eq (.place (n + 1)))]) ++ (y ++
      ([.instr (.branch .always (.place n))] ++
        ([.label (.place (n + 1))] ++ (z ++ [.label (.place n)]))))) n'' := by
    refine (((Owns.place n).append (.place (n + 1))).append (hy.toOwns.append hz.toOwns)).perm ?_ ?_
    · simp only [labelsOf_append, labelsOf_plain hc.plain, labelsOf_instr, labelsOf_nil, labelsOf_label,
        List.nil_append]
      grind
    · simp only [List.forall_mem_append, List.forall_mem_singleton]
      exact ⟨⟨hc.named, trivial⟩, hy.named, trivial, trivial, hz.named, trivial⟩
  refine ⟨howns, fun ps hps => ?_, fun ps hps => ?_⟩
  · have hf : Fresh (Function.update ps (n + 1) (some d)) (n + 2) :=
      (hps.mono (by omega)).update (by omega)
    obtain ⟨ps1, hw1, hf1, hk1⟩ := hy.reach _ hf
    have hother : ps1 (n + 1) = some d := by rw [hk1 _ (by omega), Function.update_self]
    have hstop : ps1 n = none := by rw [hk1 _ (by omega), Function.update_of_ne (by omega), hps n le_rfl]
    -- after the branch to the end, which is reached if the first part falls through
    set ps2 := if f then Function.update ps1 n (some d) else ps1 with hps2
    have hbranch : walk ⟨depthIf d f, ps1⟩ [.instr (.branch .always (.place n))] = some ⟨none, ps2⟩ := by
      cases f <;>
        simp [Arm.walk, Line.walk, Instr.walk, Label.place?, Point.arrive, hstop, depthIf, hps2]
    have hother₂ : ps2 (n + 1) = some d := by
      rw [hps2]; split_ifs
      · rw [Function.update_of_ne (by omega), hother]
      · exact hother
    have hf2 : Fresh ps2 n' := by
      rw [hps2]; split_ifs
      · exact hf1.update (by omega)
      · exact hf1
    obtain ⟨ps3, hw3, hf3, hk3⟩ := hz.reach ps2 hf2
    have hstop₃ : ps3 n = depthIf d f := by
      rw [hk3 n (by omega), hps2]
      cases f
      · exact hstop
      · exact Function.update_self ..
    have hlow : ∀ m < n, ps3 m = ps m := by
      intro m hm
      rw [hk3 m (by omega), hps2]
      have : ps1 m = ps m := by rw [hk1 m (by omega), Function.update_of_ne (by omega)]
      split_ifs
      · rw [Function.update_of_ne (by omega), this]
      · exact this
    have hwalk : ∀ {last : Option Point}, walk ⟨depthIf d g, ps3⟩ [.label (.place n)] = last →
        walk ⟨some d, ps⟩ ((c ++ [.instr (.branch .eq (.place (n + 1)))]) ++ (y ++
          ([.instr (.branch .always (.place n))] ++
            ([.label (.place (n + 1))] ++ (z ++ [.label (.place n)]))))) = last := by
      rintro last rfl
      rw [walk_append, walk_branch hc (hps (n + 1) (by omega)), Option.bind_some, walk_append, hw1,
        Option.bind_some, walk_append, hbranch, Option.bind_some, walk_append,
        walk_place_below, hother₂, Option.bind_some, walk_append, hw3, Option.bind_some]
    cases f with
    | true => exact ⟨ps3, hwalk (walk_place g hstop₃), hf3, hlow⟩
    | false =>
      cases g with
      | false => exact ⟨ps3, hwalk (walk_place_dead hstop₃), hf3, hlow⟩
      | true =>
        refine ⟨Function.update ps3 n (some d), hwalk ?_, hf3.update (by omega), fun m hm => ?_⟩
        · have : ps3 n = none := hstop₃
          simp [Arm.walk, Line.walk, Label.place?, Point.arrive, this, depthIf]
        · rw [Function.update_of_ne (by omega), hlow m hm]
  · rw [walk_append, walk_branch_dead hc, Option.bind_some, walk_append, hy.dead ps (hps.mono (by omega)),
      Option.bind_some, walk_append, walk_plain (by simp [Line.isLabel]), Option.bind_some, walk_append,
      walk_place_dead (hps _ (by omega)), Option.bind_some, walk_append, hz.dead ps (hps.mono (by omega)),
      Option.bind_some, walk_place_dead (hps n le_rfl)]

theorem loop {f : Bool} (hc : Straight d c d) (hy : Flow d (n + 2) y (depthIf d f) n') :
    Flow d n ([.label (.place n)] ++ ((c ++ [.instr (.branch .eq (.place (n + 1)))]) ++ (y ++
      ([.instr (.branch .always (.place n))] ++ [.label (.place (n + 1))])))) (some d) n' := by
  have howns : Owns n ([.label (.place n)] ++ ((c ++ [.instr (.branch .eq (.place (n + 1)))]) ++ (y ++
      ([.instr (.branch .always (.place n))] ++ [.label (.place (n + 1))])))) n' := by
    refine (((Owns.place n).append (.place (n + 1))).append hy.toOwns).perm ?_ ?_
    · simp only [labelsOf_append, labelsOf_plain hc.plain, labelsOf_instr, labelsOf_nil, labelsOf_label,
        List.nil_append]
      exact List.perm_append_comm.append_left _
    · simp only [List.forall_mem_append, List.forall_mem_singleton]
      exact ⟨trivial, ⟨hc.named, trivial⟩, hy.named, trivial, trivial⟩
  refine ⟨howns, fun ps hps => ?_, fun ps hps => ?_⟩
  · have htop : walk ⟨some d, ps⟩ [.label (.place n)] = some ⟨some d, Function.update ps n (some d)⟩ := by
      simp [Arm.walk, Line.walk, Label.place?, Point.arrive, hps n le_rfl]
    set ps1 := Function.update (Function.update ps n (some d)) (n + 1) (some d) with hps1
    have hf : Fresh ps1 (n + 2) := ((hps.mono (by omega)).update (by omega)).update (by omega)
    obtain ⟨ps2, hw2, hf2, hk2⟩ := hy.reach _ hf
    have htop2 : ps2 n = some d := by
      rw [hk2 n (by omega), hps1, Function.update_of_ne (by omega), Function.update_self]
    have hstop₂ : ps2 (n + 1) = some d := by rw [hk2 _ (by omega), hps1, Function.update_self]
    have hback : walk ⟨depthIf d f, ps2⟩ [.instr (.branch .always (.place n))] = some ⟨none, ps2⟩ := by
      cases f <;> simp [Arm.walk, Line.walk, Instr.walk, Label.place?, Point.arrive, htop2, depthIf]
    refine ⟨ps2, ?_, hf2, fun m hm => ?_⟩
    · rw [walk_append, htop, Option.bind_some, walk_append, walk_branch hc, Option.bind_some, walk_append,
        hw2, Option.bind_some, walk_append, hback, Option.bind_some, walk_place_below, hstop₂]
      rw [Function.update_of_ne (by omega)]
      exact hps _ (by omega)
    · rw [hk2 m (by omega), hps1, Function.update_of_ne (by omega), Function.update_of_ne (by omega)]
  · rw [walk_append, walk_place_dead (hps n le_rfl), Option.bind_some, walk_append, walk_branch_dead hc,
      Option.bind_some, walk_append, hy.dead ps (hps.mono (by omega)), Option.bind_some, walk_append,
      walk_plain (by simp [Line.isLabel]), Option.bind_some, walk_place_dead (hps _ (by omega))]

end Flow

end Wacc.Arm
