/-
  The text of assembly passes the check of its stack discipline.
-/
import Wacc.Arm.Balance
import Wacc.Proofs.Compile
import Wacc.Proofs.Arm.Spelling

namespace Wacc.Arm.Balance

structure Follows (p : Point) (w : Walk) : Prop where
  depth : p.depth = if w.reachable then some w.depth.toInt else none
  nonneg : w.reachable = true → 0 ≤ w.depth.toInt
  places : ∀ n, (w.labels.lookup (Label.place n).render).map Int64.toInt = p.places n
  low : ∀ n d, p.places n = some d → 0 ≤ d

/-! ## Lists of registers -/

theorem names_cons (r : Reg) (rs : List Reg) :
    Text.joinWith (lit ", ") ((r :: rs).map Reg.render) =
      r.render ++ rs.flatMap fun r => lit ", " ++ r.render := by
  induction rs generalizing r with
  | nil => simp [Text.joinWith]
  | cons q rs ih =>
    rw [List.map_cons, List.map_cons, Text.joinWith, ← List.map_cons, ih q, List.flatMap_cons]
    simp only [List.append_assoc]

def isInner (b : UInt8) : Bool := !(b == '{'.toUInt8 || b == '}'.toUInt8)

theorem name_inner (r : Reg) : r.render.all isInner = true := by cases r <;> rfl

theorem names_inner (rs : List Reg) :
    (Text.joinWith (lit ", ") (rs.map Reg.render)).all isInner = true := by
  cases rs with
  | nil => rfl
  | cons r rs =>
    rw [names_cons, List.all_append, name_inner, Bool.true_and, List.all_flatMap, List.all_eq_true]
    intro q _
    rw [List.all_append, name_inner]
    rfl

theorem trim_braces {t : Text} (h : t.all isInner = true) :
    Text.trim ('{'.toUInt8 :: (t ++ ['}'.toUInt8])) (fun b => b == '{'.toUInt8 || b == '}'.toUInt8) = t := by
  have hstop {u : Text} (hu : u.all isInner = true) (v : Text) (hne : u ≠ []) :
      (u ++ v).dropWhile (fun b => b == '{'.toUInt8 || b == '}'.toUInt8) = u ++ v := by
    cases u with
    | nil => exact absurd rfl hne
    | cons b u =>
      have := (Bool.and_eq_true_iff.1 hu).1
      simpa [isInner] using this
  rw [Text.trim, List.dropWhile_cons_of_pos (by rfl)]
  cases t with
  | nil => rfl
  | cons b t =>
    rw [hstop h _ (by simp), List.reverse_append, List.reverse_singleton, List.singleton_append,
      List.dropWhile_cons_of_pos (by rfl)]
    have := hstop (u := (b :: t).reverse) (by rw [List.all_reverse]; exact h) [] (by simp)
    rw [List.append_nil] at this
    rw [this, List.reverse_reverse]

theorem names_commas (rs : List Reg) : (rs.flatMap fun r => lit ", " ++ r.render).count 44 = rs.length := by
  induction rs with
  | nil => rfl
  | cons r rs ih =>
    have hr : (lit ", " ++ r.render).count 44 = 1 := by cases r <;> rfl
    rw [List.flatMap_cons, List.count_append, ih, hr, List.length_cons, Nat.add_comm]

theorem registers_regList (rs : List Reg) : registers (regList rs) = rs.length := by
  have htrim : Utf8.trimSpace (regList rs) = regList rs :=
    Utf8.trimSpace_tight (tight_of_word (regList_isWord rs) ⟨123, rfl, by decide⟩)
  have hinner := trim_braces (names_inner rs)
  have hlist : regList rs = '{'.toUInt8 :: (Text.joinWith (lit ", ") (rs.map Reg.render) ++ ['}'.toUInt8]) := rfl
  rw [registers, htrim, hlist, hinner]
  cases rs with
  | nil => rfl
  | cons r rs =>
    have hne : Text.joinWith (lit ", ") ((r :: rs).map Reg.render) ≠ [] :=
      (names_isWord (List.cons_ne_nil r rs)).ne_nil
    have hr : r.render.count 44 = 0 := by cases r <;> rfl
    rw [if_neg (by simpa using hne), names_cons, List.count_append]
    show r.render.count 44 + (rs.flatMap fun r => lit ", " ++ r.render).count 44 + 1 = _
    rw [hr, names_commas, Nat.zero_add, List.length_cons]

theorem pair_infix {x y : Text} {a b c : UInt8} (ha : c ≠ a) (hb : c ≠ b) :
    [a, b] <:+: x ++ c :: y ↔ [a, b] <:+: x ∨ [a, b] <:+: y := by
  induction x with
  | nil =>
    rw [List.nil_append, List.infix_cons_iff]
    simp [List.cons_prefix_cons, ha.symm]
  | cons d x ih =>
    rw [List.cons_append, List.infix_cons_iff, ih, List.infix_cons_iff, or_assoc]
    cases x with
    | nil => simp [List.cons_prefix_cons, hb.symm]
    | cons e x => simp [List.cons_prefix_cons]

theorem names_pc (r : Reg) (rs : List Reg) :
    [112, 99] <:+: r.render ++ ((rs.flatMap fun r => lit ", " ++ r.render) ++ [125]) ↔ .pc ∈ r :: rs := by
  have hreg (r : Reg) : [112, 99] <:+: r.render ↔ r = .pc := by cases r <;> decide
  induction rs generalizing r with
  | nil =>
    rw [List.flatMap_nil, List.nil_append, pair_infix (by decide) (by decide), hreg, List.mem_singleton]
    simp [@eq_comm _ r]
  | cons q rs ih =>
    have hsep : ((q :: rs).flatMap fun r => lit ", " ++ r.render) ++ [125] =
        44 :: ([] ++ 32 :: (q.render ++ ((rs.flatMap fun r => lit ", " ++ r.render) ++ [125]))) := by
      rw [List.flatMap_cons, List.append_assoc, List.append_assoc]
      rfl
    rw [hsep, pair_infix (by decide) (by decide), pair_infix (by decide) (by decide), hreg,
      List.mem_cons, @eq_comm _ r]
    have hnil : ¬ [112, 99] <:+: ([] : Text) := by simp
    rw [or_iff_right hnil]
    exact or_congr Iff.rfl (ih q)

theorem contains_pc (rs : List Reg) : Text.contains (regList rs) (lit "pc") = rs.contains .pc := by
  rw [Bool.eq_iff_iff, Text.contains_iff, List.contains_iff_mem]
  cases rs with
  | nil => decide
  | cons r rs =>
    have hlist : regList (r :: rs) =
        [] ++ 123 :: (r.render ++ ((rs.flatMap fun r => lit ", " ++ r.render) ++ [125])) := by
      rw [regList, names_cons, List.append_assoc, List.append_assoc]
      rfl
    rw [hlist, show lit "pc" = [112, 99] from rfl, pair_infix (by decide) (by decide), names_pc]
    simp

theorem isPlace_render (l : Label) : isPlace l.render = l.place?.isSome := by
  cases l with
  | place n =>
    obtain ⟨d, ds, hd⟩ := List.exists_cons_of_ne_nil (decimal_ne_nil n)
    have hdigits := decimal_isDigit n
    show isPlace (76 :: decimal n) = true
    rw [hd] at hdigits ⊢
    have hL : (76 : UInt8) = 'L'.toUInt8 := rfl
    simpa [isPlace, isDigit, hL] using hdigits
  | routine r => cases r <;> rfl
  | _ => rfl

/-! ## Depths -/

namespace Follows

variable {p p' : Point} {w : Walk} {d : Int}

theorem reachable (h : Follows p w) (hd : p.depth = some d) : w.reachable = true ∧ w.depth.toInt = d := by
  have := h.depth
  rw [hd] at this
  split_ifs at this with hr
  exact ⟨hr, (Option.some.inj this).symm⟩

theorem unreachable (h : Follows p w) (hd : p.depth = none) : w.reachable = false := by
  have := h.depth
  rw [hd] at this
  split_ifs at this with hr
  exact Bool.eq_false_iff.2 hr

theorem stop (h : Follows p w) (e : Int64) : Follows ⟨none, p.places⟩ { w with depth := e, reachable := false } :=
  ⟨rfl, nofun, h.places, h.low⟩

theorem deep (h : Follows p w) (hd : p.depth = some d) {e : Int64} {n : Int}
    (hp : Point.deep p.places n = some p') (he : 0 ≤ n → n < depthLimit → e.toInt = n) :
    Follows p' { w with depth := e } ∧ ¬ e < 0 := by
  unfold Point.deep at hp
  split_ifs at hp with hn
  cases hp
  have hen := he hn.1 hn.2
  refine ⟨⟨?_, fun _ => ?_, h.places, h.low⟩, ?_⟩
  · simp only [(h.reachable hd).1, if_true, hen]
  · simp only [hen]; exact hn.1
  · rw [Int64.lt_iff_toInt_lt, hen]
    exact not_lt.2 hn.1

theorem not_neg (h : Follows p w) (hd : p.depth = some d) : ¬ w.depth < 0 := by
  rw [Int64.lt_iff_toInt_lt]
  exact not_lt.2 (h.nonneg (h.reachable hd).1)

theorem arrive {n : Nat} {ps : Nat → Option Int} (h : Follows p w) (hd : p.depth = some d)
    (ha : Point.arrive p.places n d = some ps) :
    ∃ w', w.arrive (Label.place n).render = .ok w' ∧ Follows ⟨some d, ps⟩ w' ∧ w'.depth = w.depth := by
  obtain ⟨hr, hwd⟩ := h.reachable hd
  have hplace := h.places n
  unfold Point.arrive at ha
  unfold Walk.arrive
  cases hp : p.places n with
  | none =>
    rw [hp] at ha hplace
    cases ha
    rw [Option.map_eq_none_iff.1 hplace]
    refine ⟨_, rfl, ⟨by simp [hr, hwd], h.nonneg, fun m => ?_, fun m e he => ?_⟩, rfl⟩
    · by_cases hm : m = n
      · subst hm
        simp [hwd]
      · have hne : (Label.place m).render ≠ (Label.place n).render := fun e =>
          hm (decimal_injective (List.append_cancel_left e))
        simp only [List.lookup_cons, beq_false_of_ne hne, Function.update_of_ne hm]
        exact h.places m
    · by_cases hm : m = n
      · subst hm
        simp only [Function.update_self, Option.some.injEq] at he
        rw [← he, ← hwd]
        exact h.nonneg hr
      · simp only [Function.update_of_ne hm] at he
        exact h.low m e he
  | some e =>
    rw [hp] at ha hplace
    simp only at ha
    split_ifs at ha with hed
    cases ha
    obtain ⟨x, hx, hxe⟩ := Option.map_eq_some_iff.1 hplace
    have hxd : x = w.depth := Int64.toInt_inj.1 (by rw [hxe, hed, hwd])
    rw [hx]
    exact ⟨w, if_pos hxd, ⟨by simp [hr, hwd], h.nonneg, h.places, h.low⟩, rfl⟩

end Follows

/-! ## Operations -/

variable {ps : Nat → Option Int} {n : Int} {l : Label} {ls : List Line} {rs : List Reg} {a b : Int64} {v : Operand}

theorem toInt_add (h0 : 0 ≤ a.toInt + b.toInt) (h : a.toInt + b.toInt < depthLimit) :
    (a + b).toInt = a.toInt + b.toInt := by
  rw [Int64.toInt_add]
  simp only [depthLimit] at h
  exact Int.bmod_eq_of_le (by omega) (by omega)

theorem toInt_sub (h0 : 0 ≤ a.toInt - b.toInt) (h : a.toInt - b.toInt < depthLimit) :
    (a - b).toInt = a.toInt - b.toInt := by
  rw [Int64.toInt_sub]
  simp only [depthLimit] at h
  exact Int.bmod_eq_of_le (by omega) (by omega)


/-! ## Lines -/

theorem before_colon {t : Text} (h : Plain t) : Text.before? t (lit ":") = none := by
  refine Text.before?_eq_none fun hs => ?_
  have hm : (58 : UInt8) ∈ t := hs.subset (by decide)
  exact (plain_iff.1 h 58 hm).2.2 rfl

theorem cut_spell {op : Text} {args : List Text} (hop : isOp op = true) :
    Text.cut? (spell op args) (lit " ") = some (op, Text.joinWith (lit ", ") args) := by
  have h32 := (isOp_plain hop).2
  have := Text.cut?_append (p := []) (y := Text.joinWith (lit ", ") args) h32
  exact this

variable {aligned : Bool} {p p' : Point} {w w' : Walk} {d : Int} {i : Instr}

def effect (w : Walk) (i : Instr) : Except Problem Walk :=
  w.operation i.op (Text.joinWith (lit ", ") i.args)

theorem line_unreachable (hi : i.Named) (hr : w.reachable = false) : w.line aligned i.render = .ok w := by
  rw [i.render_eq, Walk.line, before_colon (spell_isWord i.op_isOp (i.args_isWord hi)).1.plain, hr]
  rfl

theorem line_reachable (hi : i.Named) (h : Follows p w) (hd : p.depth = some d)
    (hcall : isCall i.op = true → d % 8 = 0) (hw : effect w i = .ok w') (hn : ¬ w'.depth < 0) :
    w.line aligned i.render = .ok w' := by
  obtain ⟨hr, hwd⟩ := h.reachable hd
  obtain ⟨hword, b, hb, hle, -⟩ := spell_isWord i.op_isOp (i.args_isWord hi)
  have hdot : Text.startsWith (spell i.op i.args) (lit ".") = false := by
    obtain ⟨rest, hrest⟩ := List.head?_eq_some_iff.1 hb
    have hne : (46 : UInt8) ≠ b := by rintro rfl; exact absurd hle (by decide)
    rw [hrest]
    show ([46] : Text).isPrefixOf (b :: rest) = false
    rw [List.isPrefixOf, beq_false_of_ne hne, Bool.false_and]
  have halign : (aligned && isCall i.op && w.depth % 8 != 0) = false := by
    cases hc : isCall i.op with
    | false => rw [Bool.and_false, Bool.false_and]
    | true =>
      have hmod : w.depth % 8 = 0 := by
        refine Int64.toInt_inj.1 ?_
        rw [Int64.toInt_mod, Int.tmod_eq_emod_of_nonneg (h.nonneg hr), hwd]
        exact hcall hc
      rw [hmod, bne_self_eq_false, Bool.and_false]
  rw [i.render_eq, Walk.line, before_colon hword.plain, cut_spell i.op_isOp]
  simp only [hr, hdot, Bool.not_true, Bool.or_false, Bool.false_eq_true, if_false, Option.getD_some,
    halign]
  rw [show w.operation i.op (Text.joinWith (lit ", ") i.args) = .ok w' from hw]
  show (if w'.depth < 0 then _ else _) = _
  rw [if_neg hn]
  rfl

/-! ## Operations -/

theorem effect_push (rs : List Reg) :
    effect w (.push rs) = .ok { w with depth := w.depth + Int64.ofNat (4 * rs.length) } := by
  rw [← registers_regList]
  rfl

theorem effect_pop (rs : List Reg) : effect w (.pop rs) =
    if rs.contains .pc then
      if w.depth = Int64.ofNat (4 * rs.length) then .ok { w with depth := 0, reachable := false }
      else .error (.badReturn w.depth (Int64.ofNat (4 * rs.length)))
    else .ok { w with depth := w.depth - Int64.ofNat (4 * rs.length) } := by
  rw [← registers_regList, ← contains_pc]
  rfl

theorem ends_iff (f : Callee) :
    (f.render == lit "exit" || f.render == lit "p_throw_runtime_error") = f.ends := by
  cases f with
  | extern_ e => cases e <;> rfl
  | label l =>
    cases l with
    | routine r => cases r <;> rfl
    | _ => rfl

theorem effect_call (c : Cond) (f : Callee) :
    effect w (.call c f) = .ok (if c = .always ∧ f.ends = true then w.stop else w) := by
  rw [← ends_iff]
  cases c with
  | always =>
    show (if (f.render == lit "exit" || f.render == lit "p_throw_runtime_error") = true
      then Except.ok w.stop else Except.ok w) = _
    split_ifs with h <;> simp_all
  | _ => rfl

theorem effect_branch (c : Cond) (hl : l.Named) : effect w (.branch c l) = (do
    let w ← if l.place?.isSome then w.arrive l.render else .ok w
    return if c = .always then w.stop else w) := by
  have htrim : Utf8.trimSpace l.render = l.render :=
    Utf8.trimSpace_tight (tight_of_word (Label.render_isWord hl) l.head_render)
  have hop : effect w (.branch c l) = (do
      let w ← if isPlace (Utf8.trimSpace l.render) then w.arrive (Utf8.trimSpace l.render) else .ok w
      return if c = .always then w.stop else w) := by
    cases c <;> rfl
  rwa [htrim, isPlace_render] at hop

theorem after_sp (d a : Reg) (b : Operand) :
    Text.after? (Text.joinWith (lit ", ") [d.render, a.render, b.render]) (lit "sp, sp, #") =
      match d, a, b with
      | .sp, .sp, .imm n => some (decimalInt n)
      | _, _, _ => none := by
  cases d with
  | sp =>
    cases a with
    | sp =>
      cases b with
      | imm n =>
        have hargs : Text.joinWith (lit ", ") [Reg.sp.render, Reg.sp.render, (Operand.imm n).render] =
          lit "sp, sp, #" ++ decimalInt n := rfl
        rw [hargs, Text.after?, if_pos (by simp), List.drop_left]
      | reg r => cases r <;> rfl
      | lsl r n => cases r <;> rfl
      | asr r n => cases r <;> rfl
    | _ => rfl
  | _ => rfl

theorem effect_add (x y : Reg) (v : Operand) : effect w (.alu .add x y v) =
    match Text.after? (Text.joinWith (lit ", ") [x.render, y.render, v.render]) (lit "sp, sp, #") with
    | some t => do return { w with depth := w.depth - (← number t) }
    | none => .ok w := rfl

theorem effect_sub (x y : Reg) (v : Operand) : effect w (.alu .sub x y v) =
    match Text.after? (Text.joinWith (lit ", ") [x.render, y.render, v.render]) (lit "sp, sp, #") with
    | some t => do return { w with depth := w.depth + (← number t) }
    | none => .ok w := rfl

theorem operation_str {op : Text} (hop : op = lit "STR" ∨ op = lit "STRB") (t : Text) : w.operation op t =
    if Text.endsWith t (lit "]!") then do
      let off := ((Text.cut? t (lit "[sp, #-")).map (·.2)).getD []
      let n ← number ((Text.before? off (lit "]!")).getD off)
      return { w with depth := w.depth + n }
    else .ok w := by
  rcases hop with rfl | rfl <;> rfl

theorem effect_store (x : Width) (r : Reg) (a : Address) : effect w (.store x r a) = .ok w := by
  rw [effect, operation_str (by cases x <;> simp [Instr.op]), Instr.args, if_neg]
  intro hs
  have hlast : (Text.joinWith (lit ", ") [r.render, a.render]).getLast? = some 93 := by
    have ha : a.render.getLast? = some 93 := by
      cases a with
      | offset b n =>
        rw [Address.render]
        split_ifs <;> exact List.getLast?_concat ..
      | index b i => exact List.getLast?_concat ..
    rw [Text.joinWith, Text.joinWith, List.getLast?_append, ha, Option.some_or]
  obtain ⟨x, hx⟩ := List.isSuffixOf_iff_suffix.1 hs
  rw [← hx, show lit "]!" = [93] ++ [33] from rfl, ← List.append_assoc, List.getLast?_concat] at hlast
  cases hlast

theorem effect_pushStore (x : Width) (r : Reg) (n : Nat) : effect w (.pushStore x r n) =
    (do return { w with depth := w.depth + (← number (decimal n)) }) := by
  have hargs : Text.joinWith (lit ", ") [r.render, lit "[sp, #-" ++ decimal n ++ lit "]!"] =
      (r.render ++ lit ", ") ++ (91 :: [115, 112, 44, 32, 35, 45]) ++ (decimal n ++ lit "]!") := by
    simp only [Text.joinWith, List.append_assoc]
    rfl
  have hfree : (91 : UInt8) ∉ r.render ++ lit ", " := by cases r <;> decide
  rw [effect, operation_str (by cases x <;> simp [Instr.op]), Instr.args, if_pos]
  · rw [hargs, show lit "[sp, #-" = 91 :: [115, 112, 44, 32, 35, 45] from rfl, Text.cut?_append hfree]
    simp only [Option.map_some, Option.getD_some, Text.before?_append]
  · rw [hargs]
    exact List.isSuffixOf_iff_suffix.2 ⟨_, List.append_assoc ..⟩

/-! ## Instructions -/

theorem number_decimalInt (h0 : -2 ^ 63 ≤ n) (h : n < 2 ^ 63) : number (decimalInt n) = .ok (Int64.ofInt n) := by
  rw [number, Number.decimal_decimalInt h0 h]

theorem Follows.range (h : Follows p w) (hd : p.depth = some d) : 0 ≤ d ∧ d < 2 ^ 63 := by
  obtain ⟨hr, rfl⟩ := h.reachable hd
  exact ⟨h.nonneg hr, w.depth.toInt_lt⟩

theorem deep_range (h : Point.deep ps n = some p') : 0 ≤ n ∧ n < 2 ^ 63 := by
  unfold Point.deep at h
  split_ifs at h with hn
  exact hn

theorem isCall_op (h : ∀ c f, i ≠ .call c f) : isCall i.op = false := by
  cases i with
  | call c f => exact absurd rfl (h c f)
  | load x | store x | pushStore x => cases x <;> rfl
  | mov c | address c | branch c => cases c <;> rfl
  | alu op => cases op <;> rfl
  | _ => rfl

theorem line_neutral (hi : i.Named) (h : Follows p w) (hd : p.depth = some d) (hc : ∀ c f, i ≠ .call c f)
    (hw : effect w i = .ok w) :
    ∃ w', w.line aligned i.render = .ok w' ∧ Follows ⟨some d, p.places⟩ w' := by
  refine ⟨w, line_reachable hi h hd (by simp [isCall_op hc]) hw (h.not_neg hd), ?_⟩
  rw [← hd]
  exact h

theorem line_deepen {k : Int64} (hi : i.Named) (h : Follows p w) (hd : p.depth = some d) (hc : ∀ c f, i ≠ .call c f)
    (hp : Point.deep p.places (d + n) = some p') (hk : -2 ^ 63 ≤ n → n < 2 ^ 63 → k.toInt = n ∧ effect w i = .ok { w
      with depth := w.depth + k }) : ∃ w', w.line aligned i.render = .ok w' ∧ Follows p' w' := by
  obtain ⟨h0, hlt⟩ := h.range hd
  obtain ⟨hn0, hnlt⟩ := deep_range hp
  obtain ⟨hval, hw⟩ := hk (by omega) (by omega)
  obtain ⟨hr, hwd⟩ := h.reachable hd
  obtain ⟨hf, hneg⟩ := h.deep (e := w.depth + k) hd hp fun h1 h2 => by
    rw [toInt_add (by rw [hval, hwd]; exact h1) (by rw [hval, hwd]; exact h2), hval, hwd]
  exact ⟨_, line_reachable hi h hd (by simp [isCall_op hc]) hw hneg, hf⟩

theorem line_shrink {k : Int64} (hi : i.Named) (h : Follows p w) (hd : p.depth = some d) (hc : ∀ c f, i ≠ .call c f)
    (hp : Point.deep p.places (d - n) = some p') (hk : -2 ^ 63 ≤ n → n < 2 ^ 63 → k.toInt = n ∧ effect w i = .ok { w
      with depth := w.depth - k }) : ∃ w', w.line aligned i.render = .ok w' ∧ Follows p' w' := by
  obtain ⟨h0, hlt⟩ := h.range hd
  obtain ⟨hn0, hnlt⟩ := deep_range hp
  obtain ⟨hval, hw⟩ := hk (by omega) (by omega)
  obtain ⟨hr, hwd⟩ := h.reachable hd
  obtain ⟨hf, hneg⟩ := h.deep (e := w.depth - k) hd hp fun h1 h2 => by
    rw [toInt_sub (by rw [hval, hwd]; exact h1) (by rw [hval, hwd]; exact h2), hval, hwd]
  exact ⟨_, line_reachable hi h hd (by simp [isCall_op hc]) hw hneg, hf⟩

theorem line_push (h : Follows p w) (hd : p.depth = some d) (hp : (Instr.push rs).walk p.places d = some p') :
    ∃ w', w.line aligned (Instr.push rs).render = .ok w' ∧ Follows p' w' := by
  refine line_deepen (k := Int64.ofNat (4 * rs.length)) trivial h hd nofun hp fun _ hlt => ⟨?_, effect_push rs⟩
  rw [Int64.toInt_ofNat_of_lt (by omega)]
  rfl

theorem line_pop (h : Follows p w) (hd : p.depth = some d) (hp : (Instr.pop rs).walk p.places d = some p') :
    ∃ w', w.line aligned (Instr.pop rs).render = .ok w' ∧ Follows p' w' := by
  have hval (hlt : (4 * rs.length : Int) < 2 ^ 63) : (Int64.ofNat (4 * rs.length)).toInt = 4 * rs.length := by
    rw [Int64.toInt_ofNat_of_lt (by omega)]; push_cast; rfl
  have heff := effect_pop (w := w) rs
  simp only [Instr.walk] at hp
  split_ifs at hp with hpc hlen
  · cases hp
    obtain ⟨hr, hwd⟩ := h.reachable hd
    have hrange := h.range hd
    have hdepth : w.depth = Int64.ofNat (4 * rs.length) :=
      Int64.toInt_inj.1 (by rw [hwd, hval (by omega), hlen])
    rw [if_pos hpc, if_pos hdepth] at heff
    exact ⟨_, line_reachable trivial h hd (by rintro ⟨⟩) heff (show ¬ (0 : Int64) < 0 by decide), h.stop 0⟩
  · rw [if_neg hpc] at heff
    exact line_shrink trivial h hd (by rintro _ _ ⟨⟩) hp fun _ hlt => ⟨hval hlt, heff⟩

theorem line_pushStore {x : Width} {r : Reg} {n : Nat} (h : Follows p w) (hd : p.depth = some d)
    (hp : (Instr.pushStore x r n).walk p.places d = some p') :
    ∃ w', w.line aligned (Instr.pushStore x r n).render = .ok w' ∧ Follows p' w' := by
  refine line_deepen trivial h hd nofun hp fun h0 hlt => ⟨Int64.toInt_ofInt_of_le h0 hlt, ?_⟩
  rw [effect_pushStore, show decimal n = decimalInt n from rfl, number_decimalInt h0 hlt]
  rfl

theorem walk_alu {o : Alu} {x y : Reg} (h : ¬ ∃ n, x = .sp ∧ y = .sp ∧ v = .imm n) :
    (Instr.alu o x y v).walk ps d = some ⟨some d, ps⟩ := by
  unfold Instr.walk
  split <;> simp_all

theorem line_alu {o : Alu} {x y : Reg} (h : Follows p w) (hd : p.depth = some d)
    (hp : (Instr.alu o x y v).walk p.places d = some p') :
    ∃ w', w.line aligned (Instr.alu o x y v).render = .ok w' ∧ Follows p' w' := by
  have hneutral (heff : effect w (.alu o x y v) = .ok w) (hw : p' = ⟨some d, p.places⟩) :
      ∃ w', w.line aligned (Instr.alu o x y v).render = .ok w' ∧ Follows p' w' := by
    rw [hw]
    exact line_neutral trivial h hd nofun heff
  have hafter := after_sp x y v
  by_cases hsp : ∃ n, x = .sp ∧ y = .sp ∧ v = .imm n
  · obtain ⟨n, rfl, rfl, rfl⟩ := hsp
    cases o with
    | add =>
      refine line_shrink trivial h hd nofun hp fun h0 hlt => ⟨Int64.toInt_ofInt_of_le h0 hlt, ?_⟩
      rw [effect_add, hafter]
      simp only [number_decimalInt h0 hlt]
      rfl
    | sub =>
      refine line_deepen trivial h hd nofun hp fun h0 hlt => ⟨Int64.toInt_ofInt_of_le h0 hlt, ?_⟩
      rw [effect_sub, hafter]
      simp only [number_decimalInt h0 hlt]
      rfl
    | _ => exact hneutral rfl (Option.some.inj hp).symm
  · have hnone : Text.after? (Text.joinWith (lit ", ") [x.render, y.render, v.render]) (lit "sp, sp, #") =
        none := by
      rw [hafter]
      split
      · exact absurd ⟨_, rfl, rfl, rfl⟩ hsp
      · rfl
    refine hneutral ?_ ?_
    · cases o with
      | add => rw [effect_add, hnone]
      | sub => rw [effect_sub, hnone]
      | _ => rfl
    · rw [walk_alu hsp] at hp
      exact (Option.some.inj hp).symm

theorem Follows.stopIf {q : Prop} [Decidable q] (h : Follows ⟨some d, p.places⟩ w) :
    Follows ⟨if q then none else some d, p.places⟩ (if q then w.stop else w) := by
  split_ifs
  · exact h.stop w.depth
  · exact h

theorem line_branch {c : Cond} (hl : l.Named) (h : Follows p w) (hd : p.depth = some d)
    (hp : (Instr.branch c l).walk p.places d = some p') :
    ∃ w', w.line aligned (Instr.branch c l).render = .ok w' ∧ Follows p' w' := by
  have hcall : isCall (Instr.branch c l).op = true → d % 8 = 0 := by simp [isCall_op]
  have heff := effect_branch (w := w) c hl
  have hdepth {w' : Walk} (hw' : w'.depth = w.depth) :
      ¬ (if c = .always then w'.stop else w').depth < 0 := by
    have : (if c = .always then w'.stop else w').depth = w.depth := by split_ifs <;> exact hw'
    rw [this]
    exact h.not_neg hd
  cases hplace : l.place? with
  | none =>
    simp only [Instr.walk, hplace, Option.bind_eq_bind, Option.bind_some, Option.pure_def,
      Option.some.injEq] at hp
    rw [hplace] at heff
    refine ⟨_, line_reachable hl h hd hcall heff (hdepth rfl), ?_⟩
    rw [← hp]
    exact Follows.stopIf (hd ▸ h)
  | some n =>
    obtain rfl : l = .place n := by cases l <;> cases hplace; rfl
    obtain ⟨ps, hps, hp'⟩ := Option.bind_eq_some_iff.1 hp
    obtain ⟨w1, hw1, hf1, hd1⟩ := h.arrive hd hps
    have heff' : effect w (.branch c (.place n)) = .ok (if c = .always then w1.stop else w1) := by
      rw [heff, hplace]
      simp only [Option.isSome_some, if_true, hw1]
      rfl
    refine ⟨_, line_reachable hl h hd hcall heff' (hdepth hd1), ?_⟩
    rw [← Option.some.inj hp']
    exact Follows.stopIf (p := ⟨some d, ps⟩) hf1

theorem line_call {c : Cond} {f : Callee} (hf : f.Named) (h : Follows p w) (hd : p.depth = some d)
    (hp : (Instr.call c f).walk p.places d = some p') :
    ∃ w', w.line aligned (Instr.call c f).render = .ok w' ∧ Follows p' w' := by
  have hp' : d % 8 = 0 ∧ p' = ⟨if c = .always ∧ f.ends = true then none else some d, p.places⟩ := by
    by_cases hmod : d % 8 = 0
    · simp only [Instr.walk, hmod, ne_eq, not_true_eq_false, if_false, Option.some.injEq] at hp
      exact ⟨hmod, hp.symm⟩
    · simp [Instr.walk, hmod] at hp
  have hdepth : ¬ (if c = .always ∧ f.ends = true then w.stop else w).depth < 0 := by
    split_ifs <;> exact h.not_neg hd
  refine ⟨_, line_reachable hf h hd (fun _ => hp'.1) (effect_call c f) hdepth, ?_⟩
  rw [hp'.2]
  exact Follows.stopIf (hd ▸ h)

theorem instr_follows (hi : i.Named) (h : Follows p w) (hw : (Line.instr i).walk p = some p') :
    ∃ w', w.line aligned i.render = .ok w' ∧ Follows p' w' := by
  cases hd : p.depth with
  | none =>
    simp only [Line.walk, hd, Option.some.injEq] at hw
    exact ⟨w, line_unreachable hi (h.unreachable hd), hw ▸ h⟩
  | some d =>
    simp only [Line.walk, hd] at hw
    have hneutral (heff : effect w i = .ok w) (hc : ∀ c f, i ≠ .call c f) (hw : some ⟨some d, p.places⟩ = some p') :
        ∃ w', w.line aligned i.render = .ok w' ∧ Follows p' w' := by
      rw [← Option.some.inj hw]
      exact line_neutral hi h hd hc heff
    cases i with
    | push rs => exact line_push h hd hw
    | pop rs => exact line_pop h hd hw
    | pushStore x r n => exact line_pushStore h hd hw
    | alu o x y v => exact line_alu h hd hw
    | branch c l => exact line_branch hi h hd hw
    | call c f => exact line_call hi h hd hw
    | mov c x v => exact hneutral (by cases c <;> rfl) (by rintro _ _ ⟨⟩) hw
    | address c x l => exact hneutral (by cases c <;> rfl) (by rintro _ _ ⟨⟩) hw
    | load x r a => exact hneutral (by cases x <;> rfl) (by rintro _ _ ⟨⟩) hw
    | store x r a => exact hneutral (effect_store x r a) (by rintro _ _ ⟨⟩) hw
    | number r n => exact hneutral rfl (by rintro _ _ ⟨⟩) hw
    | smull lo hi a b => exact hneutral rfl (by rintro _ _ ⟨⟩) hw
    | cmp a b => exact hneutral rfl (by rintro _ _ ⟨⟩) hw

theorem label_follows (h : Follows p w) (hw : (Line.label l).walk p = some p') :
    ∃ w', w.line aligned (l.render ++ lit ":") = .ok w' ∧ Follows p' w' := by
  have hline : w.line aligned (l.render ++ lit ":") = w.label l.render := by
    rw [Walk.line, Text.before?_append]
  rw [hline, Walk.label, isPlace_render]
  cases hplace : l.place? with
  | some n =>
    obtain rfl : l = .place n := by cases l <;> cases hplace; rfl
    cases hd : p.depth with
    | some d =>
      simp only [Line.walk, hplace, hd] at hw
      obtain ⟨ps, hps, rfl⟩ := Option.map_eq_some_iff.1 hw
      obtain ⟨w1, hw1, hf1, -⟩ := h.arrive hd hps
      refine ⟨w1, ?_, hf1⟩
      rw [Option.isSome_some, if_pos rfl, if_pos (h.reachable hd).1, hw1]
    | none =>
      simp only [Line.walk, hplace, hd, Option.some.injEq] at hw
      subst hw
      have hr := h.unreachable hd
      have hlook := h.places n
      rw [Option.isSome_some, if_pos rfl, if_neg (by simp [hr])]
      cases hl : w.labels.lookup (Label.place n).render with
      | none =>
        rw [hl] at hlook
        exact ⟨w, rfl, by rw [← hlook]; exact ⟨by simp [hr], h.nonneg, h.places, h.low⟩⟩
      | some e =>
        rw [hl] at hlook
        exact ⟨_, rfl, ⟨by simpa using hlook.symm, fun _ => h.low n _ hlook.symm, h.places, h.low⟩⟩
  | none =>
    cases hd : p.depth with
    | some d => simp only [Line.walk, hplace, hd] at hw; cases hw
    | none =>
      simp only [Line.walk, hplace, hd, Option.some.injEq] at hw
      subst hw
      have hfinish : w.finish = .ok () := by rw [Walk.finish, h.unreachable hd, Bool.and_false]; rfl
      rw [if_neg (by simp), hfinish]
      exact ⟨_, rfl, ⟨rfl, fun _ => le_rfl, h.places, h.low⟩⟩

/-! ## Programs -/

theorem line_follows {l : Line} (hl : l.InCode) (h : Follows p w) (hw : l.walk p = some p') :
    ∃ w', w.line aligned l.shown = .ok w' ∧ Follows p' w' := by
  cases l with
  | label l => exact label_follows h hw
  | instr i => exact instr_follows hl h hw
  | pool =>
    refine ⟨w, ?_, Option.some.inj hw ▸ h⟩
    rw [Walk.line, before_colon (show Plain (Line.shown .pool) from rfl),
      show Text.startsWith (Line.shown .pool) (lit ".") = true from rfl, Bool.or_true]
    rfl
  | _ => cases hl

theorem shown_ne {l : Line} (h : l.InCode) :
    (l.shown == lit ".data") = false ∧ (l.shown == lit ".text") = false ∧ l.shown.isEmpty = false := by
  cases l with
  | label l =>
    have hlast : (Line.label l).shown.getLast? = some 58 := List.getLast?_concat ..
    have hne {t : Text} (ht : t.getLast? ≠ some 58) : ((Line.label l).shown == t) = false :=
      beq_false_of_ne fun e => ht (e ▸ hlast)
    refine ⟨hne (by decide), hne (by decide), ?_⟩
    rw [List.isEmpty_eq_false_iff]
    rintro e
    rw [e] at hlast
    cases hlast
  | instr i =>
    obtain ⟨-, b, hb, hle, -⟩ := spell_isWord i.op_isOp (i.args_isWord h)
    rw [← i.render_eq] at hb
    have hne {t : Text} (ht : t.head? = some 46) : ((Line.instr i).shown == t) = false :=
      beq_false_of_ne fun e => by
        have : b = 46 := Option.some.inj (hb.symm.trans ((congrArg List.head? e).trans ht))
        rw [this] at hle
        exact absurd hle (by decide)
    refine ⟨hne rfl, hne rfl, ?_⟩
    rw [List.isEmpty_eq_false_iff]
    rintro e
    rw [show i.render = [] from e] at hb
    cases hb
  | pool => exact ⟨rfl, rfl, rfl⟩
  | _ => cases h

theorem lines_code (hls : ∀ l ∈ ls, l.InCode) (h : Follows p w) (hw : walk p ls = some ⟨none, ps⟩) (n : Nat) :
    lines aligned n true w (ls.map Line.render ++ [[]]) = .ok () := by
  induction ls generalizing p w n with
  | nil =>
    cases hw
    have hblank : Utf8.trimSpace [] = [] := by simp [Utf8.trimSpace, Utf8.pieces]
    have hfinish : w.finish = .ok () := by rw [Walk.finish, h.unreachable rfl, Bool.and_false]; rfl
    rw [List.map_nil, List.nil_append, lines, hblank]
    show lines aligned (n + 1) true w [] = .ok ()
    rw [lines, hfinish]
    rfl
  | cons l ls ih =>
    obtain ⟨hl, hls⟩ := List.forall_mem_cons.1 hls
    obtain ⟨p1, hp1, hw⟩ := Option.bind_eq_some_iff.1 hw
    obtain ⟨w1, hw1, h1⟩ : ∃ w', w.line aligned l.shown = .ok w' ∧ Follows p1 w' := line_follows hl h hp1
    obtain ⟨hdata, htext, hempty⟩ := shown_ne hl
    rw [List.map_cons, List.cons_append, lines, Line.trim_render hl.named]
    simp only [hdata, htext, hempty, Bool.false_eq_true, if_false, Bool.not_true, Bool.or_false, hw1]
    exact ih hls h1 hw (n + 1)

theorem lines_data {rest : List Text} (hls : ∀ l ∈ ls, l.Named ∧ (l.shown == lit ".text") = false) (n : Nat) :
    ∃ m, lines aligned n false w (ls.map Line.render ++ rest) = lines aligned m false w rest := by
  induction ls generalizing n with
  | nil => exact ⟨n, rfl⟩
  | cons l ls ih =>
    obtain ⟨⟨hl, htext⟩, hls⟩ := List.forall_mem_cons.1 hls
    obtain ⟨m, hm⟩ := ih hls (n + 1)
    refine ⟨m, ?_⟩
    rw [List.map_cons, List.cons_append, lines, Line.trim_render hl]
    simp only [htext, Bool.false_eq_true, if_false, Bool.not_false, Bool.or_true, if_true, hm, ite_self]

theorem dataLines_shown (consts : List Text) :
    ∀ l ∈ dataLines consts, l.Named ∧ (l.shown == lit ".text") = false := by
  have hsecond {t : Text} (ht : t[1]? ≠ some 116) : (t == lit ".text") = false :=
    beq_false_of_ne fun e => ht (e ▸ rfl)
  refine List.forall_mem_cons.2 ⟨⟨trivial, rfl⟩, fun l hl => ?_⟩
  obtain ⟨⟨t, n⟩, -, hl⟩ := List.mem_flatMap.1 hl
  simp only [constLines, List.mem_cons, List.not_mem_nil, or_false] at hl
  rcases hl with rfl | rfl | rfl
  · exact ⟨trivial, (shown_ne (l := .label (.const n)) trivial).2.1⟩
  · exact ⟨trivial, hsecond (show some (119 : UInt8) ≠ some 116 by decide)⟩
  · exact ⟨trivial, hsecond (show some (97 : UInt8) ≠ some 116 by decide)⟩

theorem complaint_of_closed {code : List Line} {n : Nat} (consts : List Text) (h : Closed 0 code n) :
    complaint? aligned (render (dataLines consts ++ [.text, .global .main] ++ code)) = none := by
  obtain ⟨ps, hwalk, -⟩ := h.walk (fun _ => none) fun _ _ => rfl
  have hstart : Follows ⟨none, fun _ => none⟩ {} := ⟨rfl, nofun, fun _ => rfl, nofun⟩
  have hnamed : ∀ l ∈ dataLines consts ++ [.text, .global .main] ++ code, l.Named := by
    refine List.forall_mem_append.2 ⟨List.forall_mem_append.2 ⟨?_, ?_⟩, fun l hl => (h.named l hl).named⟩
    · exact fun l hl => (dataLines_shown consts l hl).1
    · simp [Line.Named, Label.Named]
  have hcode (m : Nat) : lines aligned m false {}
      ((Line.text :: .global .main :: code).map Line.render ++ [[]]) = .ok () := by
    have hglobal : Walk.line aligned {} (Line.global .main).shown = .ok {} := by
      rfl
    rw [List.map_cons, List.map_cons, List.cons_append, List.cons_append, lines,
      Line.trim_render (l := .text) trivial]
    show lines aligned (m + 1) true {} _ = .ok ()
    rw [lines, Line.trim_render (l := .global .main) trivial, hglobal]
    exact lines_code h.named hstart hwalk (m + 2)
  obtain ⟨m, hm⟩ : ∃ m, lines aligned 1 false {} ((dataLines consts).map Line.render ++
      ((Line.text :: .global .main :: code).map Line.render ++ [[]])) = lines aligned m false {}
      ((Line.text :: .global .main :: code).map Line.render ++ [[]]) := lines_data (dataLines_shown consts) 1
  have hlines : (dataLines consts ++ [Line.text, .global .main] ++ code).map Line.render ++ [[]] =
      (dataLines consts).map Line.render ++
        ((Line.text :: .global .main :: code).map Line.render ++ [[]]) := by
    simp only [List.map_append, List.append_assoc, List.map_cons, List.cons_append, List.nil_append]
  rw [complaint?, splitOn_render hnamed, hlines, hm, hcode]

end Wacc.Arm.Balance

namespace Wacc.Arm

/-- **The stack is balanced and aligned in every program that is emitted**: there is assembly for a
    program that is accepted, its text has no complaint with and without the alignment of calls, and
    the walk over its code goes through. -/
theorem Assembly.text_balanced (f : File) (p : Program) (hlen : f.content.length < 2 ^ 32)
    (hp : f.program? = some p) :
    ∃ a, Assembly.ofProgram p = .ok a ∧ (∀ aligned, Balance.complaint? aligned a.text = none) ∧
      ∃ consts code places, a.lines = dataLines consts ++ [.text, .global .main] ++ code ∧
        walk ⟨none, fun _ => none⟩ code = some ⟨none, places⟩ := by
  obtain ⟨⟨n, hn, hb⟩, hfalls⟩ := File.bounded_of_program hlen hp
  obtain ⟨_, out, s, hrun, hclosed⟩ := Gen.program_closed hb hn
  have hout := hclosed hfalls
  obtain ⟨places, hwalk, -⟩ := hout.walk (fun _ => none) fun _ _ => rfl
  refine ⟨{ lines := dataLines s.consts ++ [.text, .global .main] ++ out, runtime := s.used,
            consts := s.consts.length }, by rw [Assembly.ofProgram, hrun], fun aligned => ?_, ?_⟩
  · exact Balance.complaint_of_closed s.consts hout
  · exact ⟨s.consts, out, places, rfl, hwalk⟩

/-- A function with a loop and a call, an array, a pair, and what can fail at run time. -/
def sample : File where
  id := 0
  path := lit "sample.wacc"
  flags := 0
  content := lit "begin
    int last(int[] a, int n) is
      int i = 0 ;
      while i + 1 < n do if a[i] > 9 then exit a[i] / n else i = i + 1 fi done ;
      return a[i]
    end
    int[] a = [3, 1, 2] ;
    int x = call last(a, len a) ;
    pair(int, char) p = newpair(x, 'c') ;
    read x ;
    begin string s = \"end\" ; println s end ;
    println x * 2 ;
    free p
  end"

theorem Assembly.text_balanced_sample : ∃ p a, sample.program? = some p ∧ Assembly.ofProgram p = .ok a ∧
    ∀ aligned, Balance.complaint? aligned a.text = none := by
  obtain ⟨p, hp⟩ : ∃ p, sample.program? = some p := Option.isSome_iff_exists.1 (by decide +kernel)
  obtain ⟨a, ha, hbalanced, -⟩ := Assembly.text_balanced sample p (by decide +kernel) hp
  exact ⟨p, a, hp, ha, hbalanced⟩

end Wacc.Arm
