/-
  Running rules.

  A rule takes tokens from a reader and gives a tree, or none.
-/
import Wacc.Proofs.Tree.Shape
import Wacc.Tree.Program

namespace Wacc

/-! ## Readers -/

namespace Reader

/-- The unread tokens are spelled as their kinds ask, and the end of the file is marked as such. -/
structure Spelled (r : Reader) : Prop where
  unread : ∀ t ∈ r.unread, t.kind.Spells t.text
  eof : r.eof.kind = .eof

variable {r : Reader}

theorem Spelled.report (h : r.Spelled) (s : Span) (f : SyntaxFault) : (r.report s f).Spelled :=
  ⟨h.unread, h.eof⟩

theorem Spelled.advance (h : r.Spelled) : r.advance.Spelled := by
  unfold Reader.advance
  split
  · exact h
  · rename_i t rest hu
    exact ⟨fun t' ht' => h.unread t' (by rw [hu]; exact List.mem_cons_of_mem _ ht'), h.eof⟩

theorem peek_spelled (h : r.Spelled) (hk : r.peek.kind ≠ .eof) : r.peek.kind.Spells r.peek.text := by
  have he := h.eof
  unfold Reader.peek Reader.peekAt at *
  cases hu : r.unread with
  | nil => simp [hu, he] at hk
  | cons t rest => exact h.unread t (by simp [hu])

theorem skipToBorder_suffix (last : Span) (ts : List Token) : (skipToBorder last ts).2 <:+ ts := by
  induction ts generalizing last with
  | nil => exact List.suffix_refl _
  | cons t rest ih =>
    rw [skipToBorder]
    split_ifs
    · exact List.suffix_refl _
    · exact (ih t.span).trans (List.suffix_cons t rest)

end Reader

namespace Rule

variable {α β : Type}

/-! ## Running rules -/

/-- Running the rule from `r` ends in an outcome and a reader that satisfy `Q`. -/
def Wp (x : Rule α) (Q : α → Reader → Prop) (r : Reader) : Prop := Q (x r).1 (x r).2

/-- What the rules are made of, run one after the other. -/
theorem wp_steps {r : Reader} :
    (∀ {α β : Type} (x : Rule β) (f : β → Rule α) Q, Wp (x >>= f) Q r ↔ Wp x (fun a r' => Wp (f a) Q r') r) ∧
    (∀ {α : Type} (a : α) Q, Wp (pure a) Q r ↔ Q a r) ∧
    (∀ {α : Type} (c : Prop) [Decidable c] (x y : Rule α) Q,
      Wp (if c then x else y) Q r ↔ if c then Wp x Q r else Wp y Q r) ∧
    (∀ Q, Wp get Q r ↔ Q r r) ∧
    (∀ f Q, Wp (modify f) Q r ↔ Q ⟨⟩ (f r)) ∧
    (∀ Q, Wp peek Q r ↔ Q r.peek r) ∧
    (∀ n Q, Wp (kindAt n) Q r ↔ Q (r.peekAt n).kind r) ∧
    (∀ k Q, Wp (isAt k) Q r ↔ Q (r.peek.kind == k) r) ∧
    (∀ Q, Wp advance Q r ↔ Q r.peek r.advance) ∧
    (∀ f Q, Wp (complain f) Q r ↔ Q () (r.report r.place (f r.peek))) ∧
    (∀ Q, Wp fuel Q r ↔ Q (r.unread.length + 1) r) ∧
    (∀ Q, Wp mark Q r ↔ Q r.problems.length r) ∧
    (∀ m Q, Wp (failedSince m) Q r ↔ Q (decide (m < r.problems.length)) r) := by
  refine ⟨fun _ _ _ => .rfl, fun _ _ => .rfl, fun c _ x y Q => ?_, fun _ => .rfl, fun _ _ => .rfl, fun _ => .rfl,
    fun _ _ => .rfl, fun _ _ => .rfl, fun _ => .rfl, fun _ _ => .rfl, fun _ => .rfl, fun _ => .rfl, fun _ _ => .rfl⟩
  split_ifs <;> rfl

section
variable {x y : Rule α} {Q : α → Reader → Prop} {r : Reader}

theorem Wp.weaken {Q' : α → Reader → Prop} (h : Wp x Q r) (hq : ∀ a s, Q a s → Q' a s) : Wp x Q' r := hq _ _ h

/-- The rules do the same from `r` on, and end as `Wp` says. -/
def Same (x y : Rule α) (Q : α → Reader → Prop) (r : Reader) : Prop := x r = y r ∧ Wp x Q r

theorem same_steps :
    (∀ x : Rule α, Same x x Q r ↔ Wp x Q r) ∧
    (∀ {β : Type} (x : Rule β) (f g : β → Rule α),
      Same (x >>= f) (x >>= g) Q r ↔ Wp x (fun a r' => Same (f a) (g a) Q r') r) ∧
    (∀ {β γ : Type} (x y : Rule γ) (k l : γ → Rule β) (f g : β → Rule α),
      Same (x >>= k >>= f) (y >>= l >>= g) Q r ↔ Same (x >>= fun a => k a >>= f) (y >>= fun a => l a >>= g) Q r) ∧
    (∀ (c : Prop) [Decidable c] (x x' y y' : Rule α),
      Same (if c then x else x') (if c then y else y') Q r ↔ if c then Same x y Q r else Same x' y' Q r) ∧
    (∀ {β : Type} (c : Prop) [Decidable c] (x x' y y' : Rule β) (f g : β → Rule α),
      Same ((if c then x else x') >>= f) ((if c then y else y') >>= g) Q r ↔
        if c then Same (x >>= f) (y >>= g) Q r else Same (x' >>= f) (y' >>= g) Q r) := by
  refine ⟨fun _ => and_iff_right rfl, fun _ _ _ => .rfl, fun _ _ _ _ _ _ => .rfl, fun c _ _ _ _ _ => ?_,
    fun c _ _ _ _ _ _ _ => ?_⟩ <;> split_ifs <;> rfl

theorem Same.seq {f g : α → Rule β} {Q' : β → Reader → Prop} (h : Same x y Q r)
    (hf : ∀ a s, Q a s → Same (f a) (g a) Q' s) : Same (x >>= f) (y >>= g) Q' r := by
  obtain ⟨he, hx⟩ := h
  obtain ⟨hg, hq⟩ := hf _ _ hx
  refine ⟨?_, hq⟩
  show f (x r).1 (x r).2 = g (y r).1 (y r).2
  rw [← he, hg]

end

theorem build_some {k : NodeKind} {text : Text} {sp : Span} {parts : List (Option Tree)} {t : Tree}
    (h : build k text sp parts = Option.some t) :
    ∃ cs, parts = cs.map Option.some ∧ t = .make k text sp cs := by
  obtain ⟨cs, hcs, rfl⟩ := Option.map_eq_some_iff.1 h
  refine ⟨cs, ?_, rfl⟩
  clear h
  induction parts generalizing cs with
  | nil => simp at hcs; simp [← hcs]
  | cons p ps ih =>
    simp only [List.mapM_cons, id, Option.bind_eq_bind, Option.bind_eq_some_iff, Option.pure_def,
      Option.some.injEq] at hcs
    obtain ⟨c, rfl, ds, hd, rfl⟩ := hcs
    rw [List.map_cons, ← ih ds hd]

end Rule
end Wacc
