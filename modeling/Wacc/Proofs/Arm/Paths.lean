/-
  Paths through assembly text.

  A path starts behind the label of a routine with nothing pushed.  It goes on from line to line, takes a
  branch to a place or does not take it, and keeps the number of bytes pushed, which has no bound.  The walk
  over the lines reads each of them once.  It passes the places that it has not heard of after the end of a
  path, and knows nothing of the lines behind them.
-/
import Wacc.Arm.Balance
import Wacc.Proofs.Text.Basic

namespace Wacc.Arm.Balance

/-! ## Lines -/

/-- What a line does. -/
inductive Act where
  | label (l : Text)
  | move (n : Int)
  | return (n : Int)
  | branch (l : Text) (always : Bool)
  | stop
  deriving DecidableEq

def value (t : Text) : Int := (Number.decimal t).toOption.getD 0

def pushed (args : Text) : Int := 4 * registers args

def Act.ofOperation (op args : Text) : Act :=
  if op == lit "PUSH" then .move (pushed args)
  else if op == lit "POP" then
    if Text.contains args (lit "pc") then .return (pushed args) else .move (-pushed args)
  else
    match (if op == lit "SUB" || op == lit "ADD" then Text.after? args (lit "sp, sp, #") else none) with
    | some t => .move (if op == lit "SUB" then value t else -value t)
    | none =>
      if (op == lit "STR" || op == lit "STRB") && Text.endsWith args (lit "]!") then
        let off := ((Text.cut? args (lit "[sp, #-")).map (·.2)).getD []
        .move (value ((Text.before? off (lit "]!")).getD off))
      else if isBranch op then .branch (Utf8.trimSpace args) (op == lit "B")
      else if op == lit "BL" && (args == lit "exit" || args == lit "p_throw_runtime_error") then .stop
      else .move 0

theorem Act.ofOperation_ne_label (op args l : Text) : ofOperation op args ≠ .label l := by
  unfold ofOperation
  repeat' split
  all_goals nofun

def operation (t : Text) : Text × Text := (Text.cut? t (lit " ")).getD (t, [])

def act (t : Text) : Act :=
  match Text.before? t (lit ":") with
  | some l => .label l
  | none => if Text.startsWith t (lit ".") then .move 0 else .ofOperation (operation t).1 (operation t).2

def code : Bool → List Text → List Text
  | _, [] => []
  | on, raw :: rest =>
    let t := Utf8.trimSpace raw
    if t == lit ".data" then code false rest
    else if t == lit ".text" then code true rest
    else if t.isEmpty || !on then code on rest
    else t :: code on rest

def codeOf (asm : Text) : List Text := code false (Text.splitOn '\n'.toUInt8 asm)

/-- A path gets to the line with this number, with so many bytes pushed. -/
inductive Path (ts : List Text) : Nat → Int → Prop
  | start {i t l} :
    ts[i]? = some t → act t = .label l → isPlace l = false → Path ts (i + 1) 0
  | place {i d t l} :
    Path ts i d → ts[i]? = some t → act t = .label l → isPlace l = true → Path ts (i + 1) d
  | move {i d n t} :
    Path ts i d → ts[i]? = some t → act t = .move n → Path ts (i + 1) (d + n)
  | jump {i j d t u l b} :
    Path ts i d → ts[i]? = some t → act t = .branch l b → isPlace l = true →
      ts[j]? = some u → act u = .label l → Path ts j d
  | stay {i d t l} :
    Path ts i d → ts[i]? = some t → act t = .branch l false → Path ts (i + 1) d

/-! ## The walk at a line -/

theorem exists_of_bind {α β : Type} {x : Except Problem α} {f : α → Except Problem β} {b : β}
    (h : (x >>= f) = .ok b) : ∃ a, x = .ok a ∧ f a = .ok b := by
  cases x with
  | error p => cases h
  | ok a => exact ⟨a, rfl, h⟩

theorem value_range {t : Text} {n : Int} (h : Number.decimal t = .ok n) : -2 ^ 63 ≤ n ∧ n < 2 ^ 63 := by
  simp only [Number.decimal] at h
  cases hu : Number.unsigned 10 (Number.sign t).2 with
  | error p =>
    rw [hu] at h
    cases h
  | ok m =>
    rw [hu] at h
    replace h : Number.signedValue (Number.sign t).1 m = .ok n := h
    unfold Number.signedValue at h
    split_ifs at h <;> cases h <;> omega

theorem toInt_number {t : Text} {k : Int64} (h : number t = .ok k) : k.toInt = value t := by
  unfold number at h
  cases hd : Number.decimal t with
  | error p => simp [hd] at h
  | ok n =>
    obtain ⟨hlo, hhi⟩ := value_range hd
    simp only [hd, Except.ok.injEq] at h
    rw [← h, value, hd, Int64.toInt_ofInt_of_le (by simpa using hlo) (by simpa using hhi)]
    rfl

theorem toInt_registerBytes {args : Text} (h : registers args < 2 ^ 61) :
    (registerBytes args).toInt = pushed args := by
  rw [registerBytes, Int64.toInt_ofNat_of_lt (by omega), pushed]
  rfl

variable {a b : Int64}

/-- From a depth that is not negative a step that wraps ends below zero. -/
theorem toInt_add_of_nonneg (ha : 0 ≤ a.toInt) (h : ¬ a + b < 0) : (a + b).toInt = a.toInt + b.toInt := by
  rw [Int64.lt_iff_toInt_lt, Int64.toInt_add, Int64.toInt_zero, not_lt] at h
  rw [Int64.toInt_add]
  have := b.toInt_lt
  have := b.le_toInt
  have := a.toInt_lt
  rw [Int.bmod_def] at h ⊢
  split_ifs at h ⊢ <;> omega

theorem toInt_sub_of_nonneg (ha : 0 ≤ a.toInt) (h : ¬ a - b < 0) : (a - b).toInt = a.toInt - b.toInt := by
  rw [Int64.lt_iff_toInt_lt, Int64.toInt_sub, Int64.toInt_zero, not_lt] at h
  rw [Int64.toInt_sub]
  have := b.toInt_lt
  have := b.le_toInt
  have := a.toInt_lt
  rw [Int.bmod_def] at h ⊢
  split_ifs at h ⊢ <;> omega

namespace Walk

variable {w w' : Walk} {t l op args : Text}

def Acts (w w' : Walk) : Act → Prop
  | .label l => w.label l = .ok w'
  | .move n => ∃ d : Int64, w' = { w with depth := d } ∧ d.toInt = w.depth.toInt + n
  | .return n => w' = { w with depth := 0, reachable := false } ∧ w.depth.toInt = n
  | .branch l always => ∃ v, (if isPlace l then w.arrive l else .ok w) = .ok v ∧ w' = if always then v.stop else v
  | .stop => w' = w.stop

theorem operation_acts (hd : 0 ≤ w.depth.toInt) (hs : registers args < 2 ^ 61)
    (h : w.operation op args = .ok w') (h' : ¬ w'.depth < 0) : w.Acts w' (.ofOperation op args) := by
  unfold Walk.operation at h
  unfold Act.ofOperation
  by_cases hpush : (op == lit "PUSH") = true
  · rw [if_pos hpush] at h ⊢
    cases h
    exact ⟨_, rfl, by rw [toInt_add_of_nonneg hd h', toInt_registerBytes hs]⟩
  rw [if_neg hpush] at h ⊢
  by_cases hpop : (op == lit "POP") = true
  · simp only [if_pos hpop] at h ⊢
    split_ifs at h ⊢ with hpc hret
    · cases h
      exact ⟨rfl, by rw [hret, toInt_registerBytes hs]⟩
    · cases h
      exact ⟨_, rfl, by rw [toInt_sub_of_nonneg hd h', toInt_registerBytes hs, sub_eq_add_neg]⟩
  rw [if_neg hpop] at h ⊢
  generalize (if op == lit "SUB" || op == lit "ADD" then Text.after? args (lit "sp, sp, #") else none) = step at h ⊢
  cases step with
  | some t =>
    obtain ⟨k, hk, hw⟩ := exists_of_bind h
    cases hw
    dsimp only at h' ⊢
    split_ifs at h' ⊢ with hsub
    · exact ⟨_, rfl, by rw [toInt_add_of_nonneg hd h', toInt_number hk]⟩
    · exact ⟨_, rfl, by rw [toInt_sub_of_nonneg hd h', toInt_number hk, sub_eq_add_neg]⟩
  | none =>
    dsimp only at h ⊢
    by_cases hstr : ((op == lit "STR" || op == lit "STRB") && Text.endsWith args (lit "]!")) = true
    · rw [if_pos hstr] at h ⊢
      obtain ⟨k, hk, h⟩ := exists_of_bind h
      cases h
      exact ⟨_, rfl, by rw [toInt_add_of_nonneg hd h', toInt_number hk]⟩
    rw [if_neg hstr] at h ⊢
    by_cases hbranch : isBranch op = true
    · rw [if_pos hbranch] at h ⊢
      replace h : ((if isPlace (Utf8.trimSpace args) then w.arrive (Utf8.trimSpace args) else .ok w) >>= fun v =>
          pure (if op == lit "B" then v.stop else v)) = .ok w' := by
        split_ifs at h ⊢ <;> exact h
      obtain ⟨v, hv, h⟩ := exists_of_bind h
      cases h
      exact ⟨v, hv, rfl⟩
    split_ifs at h ⊢
    · cases h
      rfl
    · cases h
      exact ⟨_, rfl, (add_zero _).symm⟩

def Reads (w w' : Walk) (t : Text) : Prop :=
  (∃ l, act t = .label l ∧ w.label l = .ok w') ∨
    (∀ l, act t ≠ .label l) ∧ (w.reachable = false ∧ w' = w ∨
      w.reachable = true ∧ 0 ≤ w'.depth.toInt ∧ w.Acts w' (act t))

theorem Reads.label (h : w.Reads w' t) (hl : act t = .label l) : w.label l = .ok w' := by
  rcases h with ⟨l', hl', h⟩ | ⟨hno, -⟩
  · cases hl.symm.trans hl'
    exact h
  · exact absurd hl (hno l)

theorem line_reads (hd : 0 ≤ w.depth.toInt) (hs : registers (Balance.operation t).2 < 2 ^ 61)
    (h : w.line false t = .ok w') : w.Reads w' t := by
  unfold Walk.line at h
  unfold Reads act
  cases hl : Text.before? t (lit ":") with
  | some l =>
    rw [hl] at h
    exact .inl ⟨l, rfl, h⟩
  | none =>
    rw [hl] at h
    refine .inr ⟨fun l => ?_, ?_⟩
    · split_ifs
      · nofun
      · exact Act.ofOperation_ne_label _ _ l
    · split_ifs at h with hskip
      · cases h
        cases hr : w.reachable with
        | false => exact .inl ⟨rfl, rfl⟩
        | true =>
          rw [hr, Bool.not_true, Bool.false_or] at hskip
          rw [if_pos hskip]
          exact .inr ⟨rfl, hd, _, rfl, (add_zero _).symm⟩
      · rw [Bool.or_eq_true, not_or, Bool.not_eq_true', Bool.not_eq_false] at hskip
        rw [if_neg hskip.2]
        obtain ⟨v, hv, h⟩ := exists_of_bind h
        split_ifs at h with hneg
        cases h
        refine .inr ⟨hskip.1, ?_, operation_acts hd hs hv hneg⟩
        simpa [Int64.lt_iff_toInt_lt] using hneg

theorem arrive_cases (h : w.arrive l = .ok w') : w' = { w with labels := w'.labels } ∧
    w'.labels.lookup l = some w.depth ∧
      (w'.labels = w.labels ∨ w.labels.lookup l = none ∧ w'.labels = (l, w.depth) :: w.labels) := by
  unfold arrive at h
  split at h
  case h_1 hl =>
    cases h
    exact ⟨rfl, by simp, .inr ⟨hl, rfl⟩⟩
  case h_2 d hl =>
    split_ifs at h with hd
    cases h
    exact ⟨rfl, by rw [hl, hd], .inl rfl⟩

theorem label_routine (hl : isPlace l = false) (h : w.label l = .ok w') :
    w.finish = .ok () ∧ w' = { w with routine := l, depth := 0, reachable := true } := by
  unfold label at h
  rw [if_neg (by rw [hl]; exact Bool.false_ne_true)] at h
  obtain ⟨_, hf, h⟩ := exists_of_bind h
  cases h
  exact ⟨hf, rfl⟩

theorem label_place (hl : isPlace l = true) (h : w.label l = .ok w') :
    w.reachable = true ∧ w.arrive l = .ok w' ∨ w.reachable = false ∧
      (w.labels.lookup l = none ∧ w' = w ∨
        ∃ d, w.labels.lookup l = some d ∧ w' = { w with depth := d, reachable := true }) := by
  unfold label at h
  split_ifs at h with hr
  · exact .inl ⟨hr, h⟩
  · refine .inr ⟨Bool.eq_false_iff.2 hr, ?_⟩
    split at h
    case h_1 hn => exact .inl ⟨hn, by cases h; rfl⟩
    case h_2 d hd => exact .inr ⟨d, hd, by cases h; rfl⟩

/-! ## What a walk remembers -/

/-- Depths are not negative, and control gets to routines only. -/
structure Sane (w : Walk) : Prop where
  depth : 0 ≤ w.depth.toInt
  labels : ∀ l e, w.labels.lookup l = some e → 0 ≤ e.toInt
  routine : w.reachable = true ∨ w.labels ≠ [] → w.routine ≠ []

theorem Sane.finish_ne (hw : w.Sane) (hr : w.reachable = true) : w.finish ≠ .ok () := by
  have hne := hw.routine (.inl hr)
  rw [Walk.finish, hr, Bool.and_true, if_pos (by simpa using hne)]
  nofun

def Learns (w w' : Walk) : Prop := ∀ l e, w.labels.lookup l = some e → w'.labels.lookup l = some e

theorem arrive_sane (hw : w.Sane) (hr : w.reachable = true) (h : w.arrive l = .ok w') : w'.Sane ∧ w.Learns w' := by
  obtain ⟨he, -, hsame | ⟨hnone, hmore⟩⟩ := arrive_cases h
  · rw [he, hsame]
    exact ⟨hw, fun _ _ => id⟩
  · rw [he, hmore]
    refine ⟨⟨hw.depth, fun l' e hl' => ?_, fun _ => hw.routine (.inl hr)⟩, fun l' e hl' => ?_⟩
    · rw [List.lookup_cons] at hl'
      split at hl'
      · cases hl'
        exact hw.depth
      · exact hw.labels l' e hl'
    · have hne : l' ≠ l := by
        rintro rfl
        rw [hnone] at hl'
        cases hl'
      simpa [List.lookup_cons, beq_false_of_ne hne] using hl'

theorem Reads.sane (h : w.Reads w' t) (hw : w.Sane) (hn : act t ≠ .label []) : w'.Sane ∧ w.Learns w' := by
  rcases h with ⟨l, hl, h⟩ | ⟨hlabel, ⟨-, rfl⟩ | ⟨hr, h0, h⟩⟩
  · cases hplace : isPlace l with
    | false =>
      obtain ⟨-, rfl⟩ := label_routine hplace h
      refine ⟨⟨le_rfl, hw.labels, fun _ hnil => hn ?_⟩, fun _ _ => id⟩
      rw [hl, show l = [] from hnil]
    | true =>
      rcases label_place hplace h with ⟨hr, h⟩ | ⟨-, ⟨-, rfl⟩ | ⟨d, hd, rfl⟩⟩
      · exact arrive_sane hw hr h
      · exact ⟨hw, fun _ _ => id⟩
      · refine ⟨⟨hw.labels l d hd, hw.labels, fun _ => hw.routine (.inr fun hnil => ?_)⟩, fun _ _ => id⟩
        rw [hnil] at hd
        cases hd
  · exact ⟨hw, fun _ _ => id⟩
  · have hroutine : w.routine ≠ [] := hw.routine (.inl hr)
    generalize act t = a at h hlabel
    cases a with
    | label l => exact absurd rfl (hlabel l)
    | move n =>
      obtain ⟨d, rfl, -⟩ := h
      exact ⟨⟨h0, hw.labels, fun _ => hroutine⟩, fun _ _ => id⟩
    | «return» n =>
      obtain ⟨rfl, -⟩ := h
      exact ⟨⟨h0, hw.labels, fun _ => hroutine⟩, fun _ _ => id⟩
    | stop =>
      cases h
      exact ⟨⟨h0, hw.labels, fun _ => hroutine⟩, fun _ _ => id⟩
    | branch l always =>
      obtain ⟨v, hv, rfl⟩ := h
      have hv' : v.Sane ∧ w.Learns v := by
        split_ifs at hv with hplace
        · exact arrive_sane hw hr hv
        · cases hv
          exact ⟨hw, fun _ _ => id⟩
      cases always with
      | false => exact hv'
      | true => exact ⟨⟨hv'.1.depth, hv'.1.labels, fun h => hv'.1.routine (h.imp nofun id)⟩, hv'.2⟩

end Walk

/-! ## The walk along the lines -/

def Walked (ts : List Text) (i : Nat) (w : Walk) : Prop := (ts.take i).foldlM (Walk.line false) {} = .ok w

variable {ts : List Text} {i j : Nat} {d : Int} {t l : Text} {v w w' : Walk}

theorem Walked.line (h : Walked ts i w) (h' : Walked ts (i + 1) w') (ht : ts[i]? = some t) :
    w.line false t = .ok w' := by
  unfold Walked at h h'
  rw [List.take_add_one, ht, Option.toList_some, List.foldlM_append, h] at h'
  simp only [List.foldlM_cons, List.foldlM_nil, bind_pure] at h'
  exact h'

theorem Walked.of_le (h : Walked ts j w') (hij : i ≤ j) : ∃ w, Walked ts i w := by
  unfold Walked at h
  rw [← List.take_append_drop i (ts.take j), List.foldlM_append, List.take_take, min_eq_left hij] at h
  obtain ⟨w, hw, -⟩ := exists_of_bind h
  exact ⟨w, hw⟩

/-- No list of registers is so long that its bytes are not a number of 64 bits, and no label is empty. -/
structure Regular (ts : List Text) : Prop where
  short : ∀ t ∈ ts, registers (operation t).2 < 2 ^ 61
  named : ∀ t ∈ ts, act t ≠ .label []

theorem Walked.learns (hts : Regular ts) (hi : Walked ts i w) (k : Nat) (hk : Walked ts (i + k) w') (hw : w.Sane) :
    w'.Sane ∧ w.Learns w' := by
  induction k generalizing w' with
  | zero =>
    cases hi.symm.trans hk
    exact ⟨hw, fun _ _ => id⟩
  | succ k ih =>
    obtain ⟨u, hu⟩ := hk.of_le (i := i + k) (by omega)
    obtain ⟨hus, hul⟩ := ih hu
    cases ht : ts[i + k]? with
    | none =>
      have hlen := List.getElem?_eq_none_iff.1 ht
      unfold Walked at hk hu
      rw [List.take_of_length_le hlen] at hu
      rw [List.take_of_length_le (by omega), hu] at hk
      cases hk
      exact ⟨hus, hul⟩
    | some t =>
      have hmem := List.mem_of_getElem? ht
      have hreads := Walk.line_reads hus.depth (hts.short t hmem) (hu.line hk ht)
      obtain ⟨hs, hl⟩ := hreads.sane hus (hts.named t hmem)
      exact ⟨hs, fun l e h => hl l e (hul l e h)⟩

theorem Walked.sane (hts : Regular ts) (h : Walked ts i w) : w.Sane :=
  (Walked.learns hts (show Walked ts 0 {} from rfl) i (by rwa [Nat.zero_add])
    ⟨le_rfl, nofun, fun h => by simp at h⟩).1

/-- The places that the walk passes, since control does not come from above and it has not heard of them. -/
def passed (w : Walk) : List Text → List Text
  | [] => []
  | t :: ts =>
    match w.line false t with
    | .error _ => []
    | .ok w' =>
      match act t with
      | .label l =>
        if isPlace l && !w.reachable && (w.labels.lookup l).isNone then l :: passed w' ts else passed w' ts
      | _ => passed w' ts

theorem passed_subset {w0 w1 : Walk} (h : w0.line false t = .ok w1) : passed w1 ts ⊆ passed w0 (t :: ts) := by
  rw [passed, h]
  dsimp only
  split
  · split_ifs
    · exact List.subset_cons_self _ _
    · exact List.Subset.refl _
  · exact List.Subset.refl _

theorem mem_passed {w0 : Walk} (h : (ts.take i).foldlM (Walk.line false) w0 = .ok w) (ht : ts[i]? = some t)
    (hw' : ∃ w', w.line false t = .ok w') (hl : act t = .label l) (hplace : isPlace l = true)
    (hr : w.reachable = false) (hnone : w.labels.lookup l = none) : l ∈ passed w0 ts := by
  induction ts generalizing i w0 with
  | nil => cases ht
  | cons u us ih =>
    cases i with
    | zero =>
      cases h
      cases ht
      obtain ⟨w', hw'⟩ := hw'
      rw [passed, hw']
      simp [hl, hplace, hr, hnone]
    | succ i =>
      obtain ⟨w1, h1, h⟩ := exists_of_bind h
      exact passed_subset h1 (ih h ht)

/-! ## Paths -/

theorem lines_walked {n : Nat} {on : Bool} {raws : List Text} (h : lines false n on w raws = .ok ()) :
    ∃ v, (code on raws).foldlM (Walk.line false) w = .ok v ∧ v.finish = .ok () := by
  induction raws generalizing n on w with
  | nil =>
    refine ⟨w, rfl, ?_⟩
    rw [lines] at h
    cases hf : w.finish with
    | ok => rfl
    | error p =>
      rw [hf] at h
      cases h
  | cons raw raws ih =>
    rw [lines] at h
    rw [code]
    split_ifs at h ⊢
    · exact ih h
    · exact ih h
    · exact ih h
    · split at h
      case h_1 w' hw' =>
        obtain ⟨v, hv, hf⟩ := ih h
        refine ⟨v, ?_, hf⟩
        rw [List.foldlM_cons, hw']
        exact hv
      case h_2 => cases h

/-- Control gets to the line with this depth; or there is a place, and the walk `v` knows it with this depth. -/
def Meets (ts : List Text) (v w : Walk) (i : Nat) (d : Int) : Prop :=
  w.reachable = true ∧ w.depth.toInt = d ∨
    ∃ t l e, ts[i]? = some t ∧ act t = .label l ∧ isPlace l = true ∧ v.labels.lookup l = some e ∧ e.toInt = d

section
variable (hts : Regular ts) (hv : Walked ts ts.length v) (hpassed : ∀ l ∈ passed {} ts, v.labels.lookup l = none)

include hts hv

theorem Walked.known (h : Walked ts i w) (hi : i ≤ ts.length) {e : Int64} (he : w.labels.lookup l = some e) :
    v.labels.lookup l = some e :=
  (h.learns hts (ts.length - i) (by rwa [Nat.add_sub_cancel' hi]) (h.sane hts)).2 l e he

/-- Behind a line that control gets to. -/
theorem Walked.next (h : Walked ts i w) (ht : ts[i]? = some t) : ∃ w', Walked ts (i + 1) w' ∧
    w.line false t = .ok w' ∧ w.Reads w' t ∧ ∀ l e, w'.labels.lookup l = some e → v.labels.lookup l = some e := by
  have hi : i + 1 ≤ ts.length := (List.getElem?_eq_some_iff.1 ht).1
  obtain ⟨w', hw'⟩ := hv.of_le hi
  have hline := h.line hw' ht
  exact ⟨w', hw', hline, Walk.line_reads (h.sane hts).depth (hts.short t (List.mem_of_getElem? ht)) hline,
    fun l e => Walked.known hts hv hw' hi⟩

theorem Walked.acts (h : Walked ts i w) (ht : ts[i]? = some t) (hno : ∀ l, act t ≠ .label l)
    (hd : Meets ts v w i d) : w.reachable = true ∧ w.depth.toInt = d ∧ ∃ w', Walked ts (i + 1) w' ∧
      w.Acts w' (act t) ∧ ∀ l e, w'.labels.lookup l = some e → v.labels.lookup l = some e := by
  rcases hd with ⟨hr, hd⟩ | ⟨u, l, -, hu, hl, -⟩
  · obtain ⟨w', hw', -, hreads, hknown⟩ := Walked.next hts hv h ht
    refine ⟨hr, hd, w', hw', ?_, hknown⟩
    rcases hreads with ⟨l, hl, -⟩ | ⟨-, ⟨hr', -⟩ | ⟨-, -, ha⟩⟩
    · exact absurd hl (hno l)
    · exact absurd (hr.symm.trans hr') nofun
    · exact ha
  · cases ht.symm.trans hu
    exact absurd hl (hno l)

include hpassed

/-- Behind a place that is reached from above or that the walk knows with this depth. -/
theorem Walked.place (h : Walked ts i w) (ht : ts[i]? = some t) (hl : act t = .label l) (hplace : isPlace l = true)
    (hd : w.reachable = true ∧ w.depth.toInt = d ∨ ∃ e, v.labels.lookup l = some e ∧ e.toInt = d) :
    ∃ w', Walked ts (i + 1) w' ∧ w'.reachable = true ∧ w'.depth.toInt = d ∧ v.labels.lookup l = some w'.depth := by
  obtain ⟨w', hw', hline, hreads, hknown⟩ := Walked.next hts hv h ht
  refine ⟨w', hw', ?_⟩
  rcases Walk.label_place hplace (hreads.label hl) with ⟨hr, harrive⟩ | ⟨hr, ⟨hnone, rfl⟩ | ⟨e, he, rfl⟩⟩
  · obtain ⟨heq, hlook, -⟩ := Walk.arrive_cases harrive
    have hlook' := hknown l _ hlook
    rw [heq]
    refine ⟨hr, ?_, hlook'⟩
    rcases hd with ⟨-, hd⟩ | ⟨e, he, hd⟩
    · exact hd
    · cases hlook'.symm.trans he
      exact hd
  · rcases hd with ⟨hr', -⟩ | ⟨e, he, -⟩
    · exact absurd (hr'.symm.trans hr) nofun
    · have := hpassed l (mem_passed h ht ⟨_, hline⟩ hl hplace hr hnone)
      exact absurd (this.symm.trans he) nofun
  · have he' := hknown l e he
    refine ⟨rfl, ?_, he'⟩
    rcases hd with ⟨hr', -⟩ | ⟨e', hlook, hd⟩
    · exact absurd (hr'.symm.trans hr) nofun
    · cases he'.symm.trans hlook
      exact hd

/-- Where a path gets, the walk was with the same depth, or it knows the place there. -/
theorem Path.walked (h : Path ts i d) : ∃ w, Walked ts i w ∧ Meets ts v w i d := by
  induction h with
  | @start i t l ht hl hplace =>
    obtain ⟨w, hw⟩ := hv.of_le (List.getElem?_eq_some_iff.1 ht).1.le
    obtain ⟨w', hw', -, hreads, -⟩ := Walked.next hts hv hw ht
    obtain ⟨-, rfl⟩ := Walk.label_routine hplace (hreads.label hl)
    exact ⟨_, hw', .inl ⟨rfl, rfl⟩⟩
  | place _ ht hl hplace ih =>
    obtain ⟨w, hw, hd⟩ := ih
    obtain ⟨w', hw', hr, hd', -⟩ := Walked.place hts hv hpassed hw ht hl hplace <| hd.imp_right <| by
      rintro ⟨u, l', e, hu, hl', -, he⟩
      cases ht.symm.trans hu
      cases hl.symm.trans hl'
      exact ⟨e, he⟩
    exact ⟨w', hw', .inl ⟨hr, hd'⟩⟩
  | move _ ht ha ih =>
    obtain ⟨w, hw, hd⟩ := ih
    obtain ⟨hr, hd, w', hw', hacts, -⟩ := Walked.acts hts hv hw ht (by rw [ha]; nofun) hd
    rw [ha] at hacts
    obtain ⟨e, rfl, he⟩ := hacts
    exact ⟨_, hw', .inl ⟨hr, by rw [he, hd]⟩⟩
  | @jump i j d t u l b _ ht ha hplace hu hl ih =>
    obtain ⟨w, hw, hd⟩ := ih
    obtain ⟨hr, hd, w', hw', hacts, hknown⟩ := Walked.acts hts hv hw ht (by rw [ha]; nofun) hd
    rw [ha] at hacts
    obtain ⟨x, hx, rfl⟩ := hacts
    rw [if_pos hplace] at hx
    obtain ⟨-, hlook, -⟩ := Walk.arrive_cases hx
    obtain ⟨y, hy⟩ := hv.of_le (List.getElem?_eq_some_iff.1 hu).1.le
    refine ⟨y, hy, .inr ⟨u, l, w.depth, hu, hl, hplace, hknown l _ ?_, hd⟩⟩
    cases b <;> exact hlook
  | stay _ ht ha ih =>
    obtain ⟨w, hw, hd⟩ := ih
    obtain ⟨hr, hd, w', hw', hacts, -⟩ := Walked.acts hts hv hw ht (by rw [ha]; nofun) hd
    rw [ha] at hacts
    obtain ⟨x, hx, heq⟩ := hacts
    rw [if_neg Bool.false_ne_true] at heq
    subst heq
    refine ⟨w', hw', .inl ?_⟩
    split_ifs at hx
    · rw [(Walk.arrive_cases hx).1]
      exact ⟨hr, hd⟩
    · cases hx
      exact ⟨hr, hd⟩

theorem Path.place_known (h : Path ts i d) (ht : ts[i]? = some t) (hl : act t = .label l) (hplace : isPlace l = true) :
    ∃ e, v.labels.lookup l = some e ∧ e.toInt = d := by
  obtain ⟨w, hw, hd | ⟨u, l', e, hu, hl', -, he⟩⟩ := h.walked hts hv hpassed
  · obtain ⟨w', -, -, hd', hlook⟩ := Walked.place hts hv hpassed hw ht hl hplace (.inl hd)
    exact ⟨_, hlook, hd'⟩
  · cases ht.symm.trans hu
    cases hl.symm.trans hl'
    exact ⟨e, he⟩

end

def heard (ts : List Text) : List (Text × Int64) :=
  match ts.foldlM (Walk.line false) {} with
  | .ok v => v.labels
  | .error _ => []

/-- **Paths through a text without a complaint are balanced**, if no place that the walk has passed is branched
    to later.  The depth is not negative, there is a line to go on with that is not the start of a routine, a
    place is reached with one depth only, and a return pops all that was pushed. -/
theorem paths_balanced {asm : Text} (h : complaint? false asm = none) (hts : Regular (codeOf asm))
    (hpassed : ∀ l ∈ passed {} (codeOf asm), (heard (codeOf asm)).lookup l = none) {i : Nat} {d : Int}
    (hp : Path (codeOf asm) i d) :
    0 ≤ d ∧ ∃ t, (codeOf asm)[i]? = some t ∧ (∀ n, act t = .return n → d = n) ∧
      ∀ l, act t = .label l → isPlace l = true ∧
        ∀ j e u, Path (codeOf asm) j e → (codeOf asm)[j]? = some u → act u = .label l → e = d := by
  have hlines : lines false 1 false {} (Text.splitOn '\n'.toUInt8 asm) = .ok () := by
    unfold complaint? at h
    split at h
    · assumption
    · cases h
  obtain ⟨v, hrun, hfinish⟩ := lines_walked hlines
  replace hrun : (codeOf asm).foldlM (Walk.line false) {} = .ok v := hrun
  generalize codeOf asm = ts at hts hpassed hp hrun ⊢
  have hv : Walked ts ts.length v := by rwa [Walked, List.take_length]
  rw [heard, hrun] at hpassed
  obtain ⟨w, hw, hmeets⟩ := hp.walked hts hv hpassed
  have hsane := hw.sane hts
  refine ⟨?_, ?_⟩
  · rcases hmeets with ⟨-, rfl⟩ | ⟨-, l, e, -, -, -, he, rfl⟩
    · exact hsane.depth
    · exact (hv.sane hts).labels l e he
  cases ht : ts[i]? with
  | none =>
    rcases hmeets with ⟨hr, -⟩ | ⟨t, -, -, ht', -⟩
    · rw [Walked, List.take_of_length_le (List.getElem?_eq_none_iff.1 ht), hrun] at hw
      cases hw
      exact absurd hfinish (hsane.finish_ne hr)
    · exact absurd (ht.symm.trans ht') nofun
  | some t =>
    refine ⟨t, rfl, fun n hn => ?_, fun l hl => ?_⟩
    · obtain ⟨-, hd, w', -, hacts, -⟩ := Walked.acts hts hv hw ht (by rw [hn]; nofun) hmeets
      rw [hn] at hacts
      exact hd.symm.trans hacts.2
    · have hplace : isPlace l = true := by
        by_contra hno
        rcases hmeets with ⟨hr, -⟩ | ⟨u, l', -, hu, hl', hplace, -⟩
        · obtain ⟨w', -, -, hreads, -⟩ := Walked.next hts hv hw ht
          exact hsane.finish_ne hr (Walk.label_routine (Bool.eq_false_iff.2 hno) (hreads.label hl)).1
        · cases ht.symm.trans hu
          cases hl.symm.trans hl'
          exact hno hplace
      refine ⟨hplace, fun j e u hq hu hl' => ?_⟩
      obtain ⟨a, ha, had⟩ := hp.place_known hts hv hpassed ht hl hplace
      obtain ⟨b, hb, hbe⟩ := hq.place_known hts hv hpassed hu hl' hplace
      cases ha.symm.trans hb
      exact hbe.symm.trans had

def looping : Text := lit ".text
main:
PUSH {lr}
L0:
CMP r4, #0
BEQ L1
STR r4, [sp, #-4]!
BL f
ADD sp, sp, #4
B L0
L1:
POP {pc}
f:
PUSH {lr}
BL exit
"

/-- A place that is branched to backwards only, and a return behind it that leaves something on the stack. -/
def backwards : Text := lit ".text
main:
PUSH {lr}
B L1
L0:
PUSH {r4}
POP {pc}
L1:
B L0
"

theorem paths_balanced_looping : Path (codeOf looping) 6 8 ∧ (0 : Int) ≤ 8 ∧
    ∃ t, (codeOf looping)[6]? = some t ∧ ∀ n, act t = .return n → 8 = n := by
  have hcode : codeOf looping = ["main:", "PUSH {lr}", "L0:", "CMP r4, #0", "BEQ L1", "STR r4, [sp, #-4]!", "BL f",
    "ADD sp, sp, #4", "B L0", "L1:", "POP {pc}", "f:", "PUSH {lr}", "BL exit"].map lit := by decide +kernel
  have hpath : Path (codeOf looping) 6 8 := by
    rw [hcode]
    refine .move (n := 4) (.stay (l := lit "L1") (.move (n := 0) (.place (l := lit "L0") (.move (d := 0) (n := 4)
      (.start (l := lit "main") rfl ?_ ?_) rfl ?_) rfl ?_ ?_) rfl ?_) rfl ?_) rfl ?_
    all_goals decide +kernel
  have hregular : Regular (codeOf looping) := by
    rw [hcode]
    exact ⟨by decide +kernel, by decide +kernel⟩
  have hok : complaint? false looping = none := by decide +kernel
  have h := paths_balanced hok hregular (by rw [hcode]; decide +kernel) hpath
  exact ⟨hpath, h.1, h.2.imp fun t ht => ⟨ht.1, ht.2.1⟩⟩

theorem backwards_unbalanced : complaint? false backwards = none ∧
    Path (codeOf backwards) 5 8 ∧ (codeOf backwards)[5]?.map act = some (.return 4) := by
  have hcode : codeOf backwards =
    ["main:", "PUSH {lr}", "B L1", "L0:", "PUSH {r4}", "POP {pc}", "L1:", "B L0"].map lit := by decide +kernel
  have hmain : Path (codeOf backwards) 2 4 := by
    rw [hcode]
    refine .move (d := 0) (n := 4) (.start (l := lit "main") rfl ?_ ?_) rfl ?_
    all_goals decide +kernel
  have hback : Path (codeOf backwards) 7 4 := by
    rw [hcode] at hmain ⊢
    refine .place (l := lit "L1") (.jump (j := 6) (b := true) (l := lit "L1") hmain rfl ?_ ?_ rfl ?_) rfl ?_ ?_
    all_goals decide +kernel
  refine ⟨by decide +kernel, ?_, by decide +kernel⟩
  rw [hcode] at hback ⊢
  refine .move (n := 4) (.place (l := lit "L0") (.jump (j := 3) (b := true) (l := lit "L0") hback rfl ?_ ?_ rfl ?_) rfl ?_ ?_) rfl ?_
  all_goals decide +kernel

end Wacc.Arm.Balance
