/-
  The events of a compilation are balanced.

  What a compilation does to a trace is to emit events, one after another.  An event that begins a
  span opens it, and one that ends a span closes the innermost open one, which must be the same.
  So a step of the compilation is described by the spans that are open before and after it
  (`Step.Moves`): it takes a stack of open spans to another one.  A span below the level of the
  trace is idle and never on the stack, and then nothing finer inside it emits an event.
-/
import Wacc.Proofs.Compile
import Wacc.Proofs.Trace.Ring

namespace Wacc

namespace Trace

/-! ## Balanced events -/

def Level.Emits (l : Level) (s : Scope) : Prop := (l.enabled && l.admits s) = true

/-- The span that an event begins or ends. -/
def Event.toSpan (e : Event) : Span :=
  { live := true, id := e.span, parent := e.parent, scope := e.scope, name := e.name }

/-- The innermost open span of a coarser scope; 0 if there is none. -/
def parentIn (o : List Span) (s : Scope) : Nat := ((o.find? (·.scope.number < s.number)).map (·.id)).getD 0

/-- The event has the next number and its parent. -/
def Event.Begins (o : List Span) (n : Nat) (e : Event) : Prop := e.span = n + 1 ∧ e.parent = parentIn o e.scope

/-- An event when `n` numbers are given out and the spans `o` are open, the innermost first. -/
inductive Event.Fits (e : Event) : List Span → Nat → List Span → Nat → Prop
  | start {o n} : e.kind = .start → e.Begins o n → e.Fits o n (e.toSpan :: o) (n + 1)
  | point {o n} : e.kind = .point → e.Begins o n → e.Fits o n o (n + 1)
  | stop {o n} : e.kind = .stop → e.Fits (e.toSpan :: o) n o n

inductive Runs (l : Level) : List Span → Nat → List Event → List Span → Nat → Prop
  | nil {o n} : Runs l o n [] o n
  | cons {o n e o' k es o'' m} : l.Emits e.scope → e.Fits o n o' k → Runs l o' k es o'' m →
      Runs l o n (e :: es) o'' m

variable {l : Level} {o o' o'' : List Span} {n m k : Nat} {e : Event} {es es' : List Event}
  {t t' t'' : Trace} {s : Span}

theorem Runs.append (h : Runs l o n es o' k) (h' : Runs l o' k es' o'' m) : Runs l o n (es ++ es') o'' m := by
  induction h with
  | nil => exact h'
  | cons ha he _ ih => exact .cons ha he (ih h')

/-- Open spans are admitted, and each has a number of its own that is given out. -/
structure Stacked (l : Level) (o : List Span) (n : Nat) : Prop where
  admitted : ∀ s ∈ o, l.Emits s.scope
  given : ∀ s ∈ o, s.id ≤ n
  own : (o.map (·.id)).Nodup

theorem Event.Fits.stacked (h : e.Fits o n o' k) (ha : l.Emits e.scope) (ho : Stacked l o n) : Stacked l o' k := by
  obtain ⟨h1, h2, h3⟩ := ho
  cases h with
  | start _ hb =>
    have := hb.1
    refine ⟨List.forall_mem_cons.2 ⟨ha, h1⟩, ?_, ?_⟩
    · simp only [List.mem_cons, toSpan]
      grind
    · simp only [List.map_cons, List.nodup_cons, List.mem_map, toSpan]
      grind
  | point _ hb => exact ⟨h1, fun s hs => (h2 s hs).trans (Nat.le_succ n), h3⟩
  | stop _ => exact ⟨fun s hs => h1 s (.tail _ hs), fun s hs => h2 s (.tail _ hs), (List.nodup_cons.1 h3).2⟩

theorem Runs.stacked (h : Runs l o n es o' m) (ho : Stacked l o n) : Stacked l o' m := by
  induction h with
  | nil => exact ho
  | cons ha he _ ih => exact ih (he.stacked ha ho)

theorem Runs.split (h : Runs l o n (es ++ es') o'' m) : ∃ o' k, Runs l o n es o' k ∧ Runs l o' k es' o'' m := by
  induction es generalizing o n with
  | nil => exact ⟨o, n, .nil, h⟩
  | cons e es ih =>
    cases h with
    | cons ha he h =>
      obtain ⟨o', k, h, h'⟩ := ih h
      exact ⟨o', k, .cons ha he h, h'⟩

theorem Runs.other (h : Runs l o n es o' m) (hn : k ≤ n) (ho : ∀ s ∈ o, s.id ≠ k) : ∀ e ∈ es, e.span ≠ k := by
  induction h with
  | nil => simp
  | cons _ he _ ih =>
    cases he with
    | start _ hb | point _ hb =>
      have := hb.1
      refine List.forall_mem_cons.2 ⟨by omega, ih (by omega) ?_⟩
      grind [Event.toSpan]
    | stop _ => exact List.forall_mem_cons.2 ⟨ho _ (.head _), ih hn fun s hs => ho s (.tail _ hs)⟩

/-- An open span is ended once, when those inside it are. -/
theorem Runs.ended {c : List Span} (h : Runs l (c ++ s :: o) n es [] m) (ho : Stacked l (c ++ s :: o) n) :
    ∃ es₁ e es₂, es = es₁ ++ e :: es₂ ∧ e.kind = .stop ∧ e.toSpan = s ∧ ∀ a ∈ es₁ ++ es₂, a.span ≠ s.id := by
  induction es generalizing c n with
  | nil =>
    generalize hc : c ++ s :: o = o' at h
    cases h
    simp at hc
  | cons e es ih =>
    obtain _ | ⟨ha, he, h⟩ := h
    have ho' := he.stacked ha ho
    have hle := ho.given s (by simp)
    generalize hc : c ++ s :: o = o' at he
    cases he with
    | start _ hb =>
      subst hc
      obtain ⟨es₁, e', es₂, rfl, hk, hs, hother⟩ := ih (c := e.toSpan :: c) h ho'
      have := hb.1
      exact ⟨e :: es₁, e', es₂, rfl, hk, hs, List.forall_mem_cons.2 ⟨by omega, hother⟩⟩
    | point _ hb =>
      subst hc
      obtain ⟨es₁, e', es₂, rfl, hk, hs, hother⟩ := ih h ho'
      have := hb.1
      exact ⟨e :: es₁, e', es₂, rfl, hk, hs, List.forall_mem_cons.2 ⟨by omega, hother⟩⟩
    | stop hk =>
      have hown := ho.own
      obtain _ | ⟨d, c⟩ := c <;> obtain ⟨rfl, rfl⟩ := List.cons.inj hc
      · exact ⟨[], e, es, rfl, hk, rfl, h.other hle (by grind)⟩
      · obtain ⟨es₁, e', es₂, rfl, hk, hs, hother⟩ := ih h ho'
        refine ⟨e :: es₁, e', es₂, rfl, hk, hs, List.forall_mem_cons.2 ⟨?_, hother⟩⟩
        grind [Event.toSpan]

/-! ## Traces that grow -/

def record (t : Trace) (es : List Event) (n : Nat) : Trace := { es.foldl emit t with spans := n }

theorem emit_spans (e : Event) : { t with spans := n }.emit e = { t.emit e with spans := n } := by
  obtain ⟨_, _ | _ | _, _⟩ := t <;> unfold emit <;> split_ifs <;> rfl

theorem foldl_emit_spans : es.foldl emit { t with spans := n } = { es.foldl emit t with spans := n } := by
  induction es generalizing t with
  | nil => rfl
  | cons e es ih => simp only [List.foldl_cons, emit_spans, ih]

theorem record_record : (t.record es k).record es' m = t.record (es ++ es') m := by
  simp [record, foldl_emit_spans]

def kept (t : Trace) : List Event := (t.history?.map (·.slots.toList)).getD []

theorem emit_kept {a : Event} (h : a ∈ (t.emit e).kept) : a ∈ t.kept ∨ a.kind = e.kind ∧ a.span = e.span := by
  have hpush {r : Ring} {b} (h : a ∈ (r.push b).slots.toList) : a ∈ r.slots.toList ∨ a = b := by
    simp only [Ring.push, Array.toList_setIfInBounds] at h
    exact List.mem_or_eq_of_mem_set h
  unfold emit at h
  split_ifs at h
  · cases hs : t.sink <;> simp only [hs, kept, history?, write, Option.map_some, Option.getD_some] at h ⊢
    case ring => exact (hpush h).imp id (by rintro rfl; exact ⟨rfl, rfl⟩)
    case both => exact (hpush h).imp id (by rintro rfl; exact ⟨rfl, rfl⟩)
    all_goals exact .inl h
  · exact .inl h

theorem mapKept_self {f : Event → Event} (h : ∀ e ∈ t.kept, f e = e) : t.mapKept f = t := by
  have hmap (r : Ring) (h : ∀ e ∈ r.slots.toList, f e = e) : r.map f = r := by
    obtain ⟨⟨es⟩, _⟩ := r
    simp only [Ring.map, List.map_toArray, List.map_congr_left h, List.map_id']
  obtain ⟨_, sink, _⟩ := t
  cases sink with
  | ring r | both r => simp only [mapKept, hmap r h]
  | _ => rfl

/-- The kept events have numbers that are given out, and none of them ends an open span. -/
structure Clear (l : Level) (o : List Span) (t : Trace) : Prop where
  level : t.level = l
  stacked : Stacked l o t.spans
  kept : ∀ e ∈ t.kept, e.span ≤ t.spans ∧ (e.kind = .stop → ∀ s ∈ o, e.span ≠ s.id)

theorem Clear.emit (h : Clear l o t) (ha : l.Emits e.scope) (he : e.Fits o t.spans o' n) :
    Clear l o' { t.emit e with spans := n } := by
  refine ⟨(emit_level e).trans h.level, he.stacked ha h.stacked, fun a ha => ?_⟩
  show a.span ≤ n ∧ _
  have hk := h.kept a
  obtain ⟨-, hle, hd⟩ := h.stacked
  obtain ha | ⟨hkind, hspan⟩ := emit_kept ha
  · cases he with
    | start _ hb | point _ hb => have := hb.1; grind [Event.toSpan]
    | stop _ => grind
  · cases he with
    | start hs hb | point hs hb => have := hb.1; exact ⟨by omega, fun h => by rw [hkind, hs] at h; cases h⟩
    | stop _ => grind [Event.toSpan]

/-- The trace `t` has become `t'` by events that take the open spans from `o` to `o'`. -/
def Grows (l : Level) (o : List Span) (t : Trace) (o' : List Span) (t' : Trace) : Prop :=
  ∃ es n, Runs l o t.spans es o' n ∧ t' = t.record es n

theorem Grows.refl : Grows l o t o t := ⟨[], t.spans, .nil, rfl⟩

theorem Grows.trans (h : Grows l o t o' t') (h' : Grows l o' t' o'' t'') : Grows l o t o'' t'' := by
  obtain ⟨es, n, hn, rfl⟩ := h
  obtain ⟨es', m, hm, rfl⟩ := h'
  exact ⟨es ++ es', m, hn.append hm, record_record⟩

theorem Clear.grows (h : Clear l o t) (ht : Grows l o t o' t') : Clear l o' t' := by
  obtain ⟨es, n, hn, rfl⟩ := ht
  generalize hk : t.spans = k at hn
  induction hn generalizing t with
  | nil => exact hk ▸ h
  | cons ha he _ ih =>
    have := ih (h.emit ha (hk ▸ he)) rfl
    rwa [record, foldl_emit_spans] at this

/-! ## Spans and points -/

/-- The spans that are open inside a span: an idle one is not among them. -/
def Span.inside (s : Span) (o : List Span) : List Span := if s.live then { s with extra := [] } :: o else o

/-- The number of the parent of what has the scope, if anything of the scope is emitted. -/
def IsParent (l : Level) (o : List Span) (c : Scope) (p : Nat) : Prop :=
  l.Emits c → p = parentIn o c

variable {c : Scope} {name detail key value : Text} {p : Nat}

theorem grows_emit (ha : l.Emits e.scope) (he : e.Fits o t.spans o' n) :
    Grows l o t o' ({ t with spans := n }.emit e) :=
  ⟨[e], n, .cons ha he .nil, emit_spans e⟩

theorem point_grows (hl : t.level = l) (hp : IsParent l o c p) : Grows l o t o (t.point c name detail p) := by
  unfold point
  split_ifs with ha
  · exact grows_emit (hl ▸ ha) (.point rfl ⟨rfl, hp (hl ▸ ha)⟩)
  · exact .refl

theorem start_grows (hl : t.level = l) (hp : IsParent l o c p) :
    Grows l o t ((t.start c name p).1.inside o) (t.start c name p).2 := by
  unfold start
  split_ifs with ha
  · exact grows_emit (hl ▸ ha) (.start rfl ⟨rfl, hp (hl ▸ ha)⟩)
  · exact .refl

theorem start_isParent {d : Scope} (hl : t.level = l) (hd : c.number < d.number) :
    IsParent l ((t.start c name p).1.inside o) d (t.start c name p).1.id := by
  intro ha
  have hc : t.admits c = true := by
    simp only [Level.Emits, admits, hl, Level.admits, Bool.and_eq_true] at ha ⊢
    refine ⟨ha.1, ?_⟩
    have := ha.2
    split_ifs at this ⊢
    · exact decide_eq_true (UInt8.le_trans (UInt8.le_of_lt hd) (of_decide_eq_true this))
    · exact decide_eq_true (UInt8.le_trans (UInt8.le_of_lt hd) (of_decide_eq_true this))
    · exact this
  simp [start, hc, Span.inside, parentIn, hd]

theorem annotate_same (h : Clear l (s.inside o) t) :
    (t.annotate s key value).2 = t ∧ (t.annotate s key value).1.id = s.id ∧
      (t.annotate s key value).1.inside o = s.inside o := by
  unfold annotate Span.inside at *
  split_ifs at h ⊢ with hs
  · refine ⟨mapKept_self fun e he => if_neg ?_, rfl, rfl⟩
    have := (h.kept e he).2
    simp_all
  · simp

theorem stop_grows (h : Clear l (s.inside o) t) : Grows l (s.inside o) t o (t.stop s detail) := by
  unfold stop Span.inside at *
  split_ifs at h ⊢ with hs
  · obtain ⟨live, id, parent, scope, name, extra⟩ := s
    cases hs
    exact grows_emit (h.stacked.admitted _ (.head _)) (.stop rfl)
  · exact .refl

end Trace

namespace Compile

open Trace (Level Grows IsParent)

variable {α β : Type} {l : Level} {o o' o'' oe : List Trace.Span} {x : Step α} {k : α → Step β} {s : Trace.Span}

/-! ## Steps between stacks of open spans -/

/-- A step from `w` has emitted events that take the open spans from `o` to `o'`, or to `oe` if it has
    failed.  Nothing is said of a step that typing breaks off. -/
def Step.Ended (l : Level) (o : List Trace.Span) (w : World) (o' oe : List Trace.Span) :
    Except Failure α × World → Prop
  | (.ok _, w') => Grows l o w.trace o' w'.trace
  | (.error (.typing _), _) => True
  | (.error _, w') => Grows l o w.trace oe w'.trace

def Step.Moves (l : Level) (o : List Trace.Span) (x : Step α) (o' oe : List Trace.Span) : Prop :=
  ∀ w, w.trace.Clear l o → Ended l o w o' oe (x w)

namespace Step.Moves

theorem pure (a : α) : Moves l o (Pure.pure a) o oe := fun _ _ => .refl

theorem throw (e : Failure) : Moves l o (throw e : Step α) o' o := by
  intro w _
  cases e with
  | typing => trivial
  | _ => exact .refl

theorem of_ok {a : α} {w w' : World} (hx : x w = (.ok a, w')) (ht : Grows l o w.trace o' w'.trace)
    (hk : Moves l o' (k a) o'' oe) (hw : w.trace.Clear l o) : Ended l o w o'' oe ((x >>= k) w) := by
  rw [bind_ok hx]
  have h := hk w' (hw.grows ht)
  revert h
  obtain ⟨(_ | _ | _ | _) | _, w''⟩ := k a w' <;> first | exact ht.trans | exact id

theorem bind (hx : Moves l o x o' oe) (hk : ∀ a, Moves l o' (k a) o'' oe) : Moves l o (x >>= k) o'' oe := by
  intro w hw
  have h := hx w hw
  rcases hr : x w with ⟨e | a, w'⟩ <;> rw [hr] at h
  · rw [bind_error hr]
    cases e <;> exact h
  · exact of_ok hr h (hk a) hw

theorem start {c : Trace.Scope} {name : Text} {p : Nat} {k : Trace.Span → Step β} (hp : IsParent l o c p)
    (hk : ∀ s, (∀ d, c.number < d.number → IsParent l (s.inside o) d s.id) → Moves l (s.inside o) (k s) o' oe) :
    Moves l o (start c name p >>= k) o' oe := fun _ hw =>
  of_ok rfl (Trace.start_grows hw.level hp) (hk _ fun _ => Trace.start_isParent hw.level) hw

theorem annotate {key value : Text} {k : Trace.Span → Step β}
    (hk : ∀ s', s'.id = s.id → s'.inside o = s.inside o → Moves l (s.inside o) (k s') o' oe) :
    Moves l (s.inside o) (annotate s key value >>= k) o' oe := fun w hw => by
  obtain ⟨ht, hid, hs⟩ := Trace.annotate_same hw
  exact of_ok rfl (ht.symm ▸ .refl) (hk _ hid hs) hw

theorem stop {detail : Text} : Moves l (s.inside o) (stop s detail) o oe := fun _ hw => Trace.stop_grows hw

theorem point {c : Trace.Scope} {name detail : Text} {p : Nat} (hp : IsParent l o c p) :
    Moves l o (point c name detail p) o oe := fun _ hw => Trace.point_grows hw.level hp

theorem stopCounted {n : Nat} : Moves l (s.inside o) (stopCounted s n) o oe :=
  annotate fun _ _ hs => hs ▸ stop

theorem tryCatch {h : Failure → Step α} (hx : Moves l o x o' o'') (hh : ∀ e, Moves l o'' (h e) o' oe)
    (hthrow : ∀ e w, ∃ w', h e w = (.error e, w')) : Moves l o (tryCatch x h) o' oe := by
  intro w hw
  have hx := hx w hw
  rcases hr : x w with ⟨e | a, w'⟩ <;> rw [hr] at hx
  · rw [tryCatch_error hr]
    obtain ⟨w'', hw''⟩ := hthrow e w'
    have := fun hc => hh e w' hc
    rw [hw''] at this ⊢
    cases e with
    | typing => trivial
    | _ => exact hx.trans (this (hw.grows hx))
  · rwa [tryCatch_ok hr]

end Step.Moves

/-! ## The phases -/

open Step (Moves)

variable {root : Nat}

theorem checkpoint_moves (ctx : Context) (c : Checkpoint) : Moves l o (checkpoint ctx c) o o := by
  unfold checkpoint
  split_ifs
  · exact .throw _
  · exact .pure _

theorem parse_moves (hr : IsParent l o .pass root) (r : Outcome) (f : File) : Moves l o (parse root r f) o o :=
  .start hr fun _ _ => .bind .stopCounted fun _ => .pure _

theorem build_moves (hr : IsParent l o .pass root) (r : Outcome) (t : Tree) : Moves l o (build root r t) o o := by
  refine .start hr fun _ _ => ?_
  cases Typing.check t with
  | error => exact fun _ _ => trivial
  | ok => exact .bind .stopCounted fun _ => .pure _

theorem returns_moves (hr : IsParent l o .func root) (bag : Bag) (fs : List Func) :
    Moves l o (returns root bag fs) o oe := by
  induction fs generalizing bag with
  | nil => exact .pure _
  | cons f fs ih => exact .start hr fun _ _ => .bind .stopCounted fun _ => ih _

theorem checkReturns_moves (hr : IsParent l o .pass root) (r : Outcome) (p : Program) :
    Moves l o (checkReturns root r p) o o :=
  .start hr fun _ hs => .bind (returns_moves (hs _ (by decide)) _ _) fun _ => .bind .stop fun _ => .pure _

theorem routines_moves (hr : IsParent l o .node root) (rs : List Text) : Moves l o (routines root rs) o oe := by
  induction rs with
  | nil => exact .pure _
  | cons r rs ih => exact .bind (.point hr) fun _ => ih

theorem codegen_moves (hr : IsParent l o .pass root) (r : Outcome) (p : Program) :
    Moves l o (codegen root r p) o o := by
  refine .start hr fun s hs => ?_
  cases Arm.Assembly.ofProgram p with
  | error => exact .bind .stop fun _ => .throw _
  | ok a =>
    refine .bind (routines_moves (hs _ (by decide)) _) fun _ => .annotate fun s₁ _ h₁ => ?_
    rw [← h₁]
    refine .annotate fun s₂ _ h₂ => ?_
    rw [← h₂]
    exact .bind .stop fun _ => .pure _

theorem phases_moves (hr : IsParent l o .pass root) (ctx : Context) (stage : Stage) (r : Outcome) (f : File) :
    Moves l o (phases ctx root stage r f) o o := by
  refine .bind (checkpoint_moves ctx _) fun _ => .bind (parse_moves hr r f) fun r => ?_
  cases r.tree with
  | none => exact .pure _
  | some t =>
    dsimp only
    split_ifs
    · exact .pure _
    · refine .bind (checkpoint_moves ctx _) fun _ => .bind (build_moves hr _ t) fun (r, program) => ?_
      cases program with
      | none => exact .pure _
      | some p =>
        refine .bind (checkReturns_moves hr _ p) fun r => ?_
        split_ifs
        · exact .pure _
        · exact .bind (checkpoint_moves ctx _) fun _ => codegen_moves hr r p

theorem lookup_moves (hr : IsParent l o .pass root) (cache : Cache) (key : UInt64) :
    Moves l o (lookup root cache key) o oe := by
  intro w hw
  unfold lookup
  rw [Step.world_bind]
  rcases cache.get w.disk key with _ | _ | _
  · exact Moves.bind (.point hr) (fun _ => .pure _) w hw
  · exact .refl
  · exact Moves.bind (.point hr) (fun _ => .pure _) w hw

theorem remember_moves (hr : IsParent l o .pass root) (cache : Cache) (key : UInt64) (r : Outcome) :
    Moves l o (remember root cache key r) o oe := by
  intro w hw
  unfold remember
  rw [Step.world_bind]
  rcases cache.put w.disk key _ with _ | _
  · exact Moves.point hr w hw
  · exact .refl

theorem throughCache_moves (hr : IsParent l o .pass root) (ctx : Context) (opts : Options) (f : File) :
    Moves l o (throughCache ctx root opts f) o o := by
  unfold throughCache
  dsimp only
  split
  · exact .bind (phases_moves hr _ _ _ _) fun _ => .pure _
  case _ cache _ =>
    refine .bind (lookup_moves hr cache _) fun r => ?_
    cases r with
    | some e => exact .pure _
    | none =>
      refine .bind (phases_moves hr _ _ _ _) fun r => ?_
      split_ifs
      · exact .bind (remember_moves hr cache _ r) fun _ => .pure _
      · exact .pure _

def closing (root : Trace.Span) : Option Nat → Step Unit
  | some n => annotate root (lit "exit") (decimal n) >>= fun root => stop root []
  | none => stop root []

theorem file_moves (ctx : Context) (opts : Options) (f : File) : Moves l [] (file ctx opts f) [] [] := by
  refine .start (fun _ => rfl) fun s hs => .annotate fun s₁ i₁ h₁ => ?_
  rw [← h₁]
  refine .annotate fun s₂ i₂ h₂ => ?_
  rw [← h₂]
  have hp : IsParent l (s₂.inside []) .pass s₂.id := by
    rw [h₂, h₁, i₂, i₁]
    exact hs _ (by decide)
  let Closes (x : Step Unit) := Step.Quiet x ∧ ∀ oe, Moves l (s₂.inside []) x [] oe
  have hclose (exit : Option Nat) : Closes (closing s₂ exit) := by
    cases exit with
    | none => exact ⟨stop_quiet, fun _ => .stop⟩
    | some => exact ⟨annotate_quiet.bind fun _ => stop_quiet, fun _ => .annotate fun _ _ hs => hs ▸ .stop⟩
  show Moves l _ (tryCatch _ _ >>= _) [] []
  refine .bind (.tryCatch
    (.bind (throughCache_moves hp ctx opts f) fun r => .bind ((hclose r.exitCode).2 _) fun _ => .pure _)
    (fun e => .bind ((hclose e.exit?).2 _) fun _ => .bind (.throw e) fun _ => .pure _) fun e w => ?_) fun r => ?_
  · obtain ⟨_, t, ht⟩ := (hclose e.exit?).1 w
    exact ⟨_, Step.bind_ok ht⟩
  · cases r <;> exact .pure _

/-- **The events of a compilation are balanced.**  Whatever is compiled, up to whatever stage, with or
    without a cache, and wherever it is cancelled, what it does to a trace is to emit events that
    leave no span open, unless it is broken off by an internal error. -/
theorem run_balanced (ctx : Context) (opts : Options) (files : FileSet) (id : UInt32) (w : World)
    (hkept : ∀ r, w.trace.history? = some r → ∀ e ∈ r.slots, e.span ≤ w.trace.spans)
    (hfault : ∀ e, (run ctx opts files id w).1 = .error e → e.fault? = none) :
    ∃ es n, (run ctx opts files id w).2.trace = w.trace.record es n ∧
      Trace.Runs w.trace.level [] w.trace.spans es [] n ∧
      ∀ es₀ b es', es = es₀ ++ b :: es' → b.kind = .start → ∃ es₁ e es₂, es' = es₁ ++ e :: es₂ ∧ e.kind = .stop ∧
        e.toSpan = b.toSpan ∧ ∀ a ∈ es₁ ++ es₂, a.span ≠ b.span := by
  have hgrows : Grows w.trace.level [] w.trace [] (run ctx opts files id w).2.trace := by
    unfold run at hfault ⊢
    cases hf : files.get? id with
    | none => exact .refl
    | some f =>
      rw [hf] at hfault
      have h := file_moves ctx opts f w ⟨rfl, ⟨by simp, by simp, by simp⟩, ?_⟩
      · dsimp only [ExceptT.run] at hfault ⊢
        revert h hfault
        obtain ⟨(_ | _ | _ | _) | _, w'⟩ := file ctx opts f w <;> intro hfault h <;>
          first | exact h | cases hfault _ rfl
      · intro e he
        cases hr : w.trace.history? with
        | none => simp [Trace.kept, hr] at he
        | some r => exact ⟨hkept r hr e (by simpa [Trace.kept, hr] using he), by simp⟩
  obtain ⟨es, n, hruns, htrace⟩ := hgrows
  refine ⟨es, n, htrace, hruns, ?_⟩
  rintro es₀ b es' rfl hb
  obtain ⟨o, k, h₀, _ | ⟨ha, hfits, h⟩⟩ := hruns.split
  have hstacked := hfits.stacked ha (h₀.stacked ⟨by simp, by simp, by simp⟩)
  cases hfits with
  | start => exact h.ended (c := []) hstacked
  | point hk | stop hk => rw [hb] at hk; cases hk

theorem run_balanced_cancelled :
    let w : World := { trace := { level := .debug, sink := .ring (.empty 4) } }
    let files : FileSet := ⟨#[⟨0, lit "a", lit "begin skip end", 0⟩]⟩
    (∀ r, w.trace.history? = some r → ∀ e ∈ r.slots, e.span ≤ w.trace.spans) ∧
      (∀ e, (run cancelled {} files 0 w).1 = .error e → e.fault? = none) ∧
      ∃ es, (run cancelled {} files 0 w).2.trace = w.trace.record es 1 ∧ Trace.Runs .debug [] 0 es [] 1 := by
  intro w files
  have hkept : ∀ r, w.trace.history? = some r → ∀ e ∈ r.slots, e.span ≤ w.trace.spans := by
    rintro _ ⟨⟩
    decide
  have hrun : (run cancelled {} files 0 w).1 = .error .cancelled := rfl
  have hfault : ∀ e, (run cancelled {} files 0 w).1 = .error e → e.fault? = none := by
    rw [hrun]
    rintro _ ⟨⟩
    rfl
  obtain ⟨es, n, htrace, hruns, -⟩ := run_balanced cancelled {} files 0 w hkept hfault
  obtain rfl : 1 = n := congrArg Trace.spans htrace
  exact ⟨hkept, hfault, es, htrace, hruns⟩

end Compile

end Wacc
