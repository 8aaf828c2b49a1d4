/-
  A ring keeps the last events.

  The slots are filled one after the other and again from the first one.  Whether the ring has not come
  round yet, is just full or has come round many times, it holds the last of the events put into it.
-/
import Mathlib.Tactic.SplitIfs
import Wacc.Trace.Basic

namespace Wacc.Trace

namespace Ring

variable {r : Ring} {kept : List Event}

/-- The ring after the events `kept`: the event number `i` is in the slot `i` modulo the capacity until the
    ring comes round to this slot. -/
structure Keeps (r : Ring) (kept : List Event) : Prop where
  pos : 0 < r.slots.size
  head : r.head = kept.length % r.slots.size
  full : r.full = decide (r.slots.size ≤ kept.length)
  slot : ∀ i < kept.length, kept.length ≤ i + r.slots.size → r.slots[i % r.slots.size]? = kept[i]?

theorem keeps_empty (size : Int) : (empty size).Keeps [] := by
  have hpos : 0 < capacityOf size := by
    unfold capacityOf
    split_ifs
    · decide
    · omega
  exact ⟨by simpa [empty] using hpos, by simp [empty], by simp [empty]; omega, fun i hi => absurd hi (by simp)⟩

@[simp] theorem size_push (e : Event) : (r.push e).slots.size = r.slots.size := by simp [push]

theorem Keeps.push (h : r.Keeps kept) (e : Event) : (r.push e).Keeps (kept ++ [e]) := by
  have hpos := h.pos
  have hhead := h.head
  have hlt : r.head < r.slots.size := hhead ▸ Nat.mod_lt _ hpos
  refine ⟨by simpa using hpos, ?_, ?_, fun i hi hle => ?_⟩
  · simp [Ring.push, hhead]
  · simp only [Ring.push, h.full, hhead, Nat.mod_add_mod, Array.size_setIfInBounds, List.length_append,
      List.length_singleton]
    by_cases hnext : kept.length + 1 < r.slots.size
    · simp [Nat.mod_eq_of_lt hnext]
      omega
    · by_cases hlast : kept.length + 1 = r.slots.size
      · simp [hlast]
      · simp [show r.slots.size ≤ kept.length by omega, show r.slots.size ≤ kept.length + 1 by omega]
  · simp only [List.length_append, List.length_singleton, size_push] at hi hle ⊢
    simp only [Ring.push, Array.getElem?_setIfInBounds]
    by_cases hi' : i < kept.length
    · -- fewer events than slots were put after this one, so its slot is not the next one
      have hne : r.head ≠ i % r.slots.size := by
        rw [hhead]
        intro heq
        have hzero := Nat.sub_mod_eq_zero_of_mod_eq heq
        rw [Nat.mod_eq_of_lt (by omega)] at hzero
        omega
      rw [if_neg hne, List.getElem?_append_left hi', h.slot i hi' (by omega)]
    · obtain rfl : i = kept.length := by omega
      rw [← hhead, if_pos rfl, if_pos hlt, List.getElem?_append_right (Nat.le_refl _), Nat.sub_self]
      rfl

theorem Keeps.toList (h : r.Keeps kept) : r.toList = kept.drop (kept.length - r.slots.size) := by
  have hpos := h.pos
  have hhead := h.head
  have hlt : r.head < r.slots.size := hhead ▸ Nat.mod_lt _ hpos
  refine List.ext_getElem? fun j => ?_
  rw [List.getElem?_drop, Ring.toList, h.full]
  by_cases hfull : r.slots.size ≤ kept.length
  · -- the oldest event is in the slot of the next one
    have hslot (hj : j < r.slots.size) := h.slot (kept.length - r.slots.size + j) (by omega) (by omega)
    have hmod : (kept.length - r.slots.size + j) % r.slots.size = (r.head + j) % r.slots.size := by
      rw [hhead, Nat.mod_add_mod, ← Nat.add_mod_right (kept.length - r.slots.size + j)]
      congr 1
      omega
    simp only [hfull, decide_true, if_true, List.getElem?_append, List.length_drop, Array.length_toList,
      List.getElem?_drop, List.getElem?_take, Array.getElem?_toList]
    split_ifs with hfirst hsecond
    · rw [← hslot (by omega), hmod, Nat.mod_eq_of_lt (by omega)]
    · rw [← hslot (by omega), hmod, Nat.mod_eq_sub_mod (by omega), Nat.mod_eq_of_lt (by omega)]
      congr 1
      omega
    · exact (List.getElem?_eq_none (by omega)).symm
  · rw [Nat.mod_eq_of_lt (by omega)] at hhead
    simp only [hfull, decide_false, Bool.false_eq_true, if_false, List.getElem?_take, Array.getElem?_toList, hhead]
    rw [show kept.length - r.slots.size + j = j by omega]
    split_ifs with hj
    · rw [← h.slot j hj (by omega), Nat.mod_eq_of_lt (by omega)]
    · exact (List.getElem?_eq_none (by omega)).symm

end Ring

def Event.number (e : Event) (n : Nat) : Event := { e with seq := n }

def Level.admitted (l : Level) (es : List Event) : List Event := es.filter fun e => l.admits e.scope

variable {t : Trace} {r : Ring} {e : Event} {kept : List Event}

theorem emit_level (e : Event) : (t.emit e).level = t.level := by
  unfold emit
  split_ifs
  · cases t.sink <;> rfl
  · rfl

/-- An event that is admitted goes to the ring under a new number. -/
theorem emit_history (h : t.history? = some r) (ha : t.level.admits e.scope) :
    t.seq < (t.emit e).seq ∧ (t.emit e).history? = some (r.push (e.number (t.emit e).seq)) := by
  unfold emit
  rw [if_pos ha]
  unfold history? at h
  split at h <;> rename_i hs
  · cases h
    simp [hs, history?, keep, Event.number]
  · cases h
    simp only [hs, history?, keep, write, Event.number, and_true]
    omega
  · cases h

theorem foldl_emit (h : t.history? = some r) (hr : r.Keeps kept) (es : List Event) :
    ∃ r' ns, (es.foldl emit t).history? = some r' ∧ r'.slots.size = r.slots.size ∧ (t.seq :: ns).Pairwise (· < ·) ∧
      ns.length = (t.level.admitted es).length ∧
      r'.Keeps (kept ++ List.zipWith Event.number (t.level.admitted es) ns) := by
  induction es generalizing t r kept with
  | nil => exact ⟨r, [], h, rfl, List.pairwise_singleton .., rfl, by simpa using hr⟩
  | cons e es ih =>
    by_cases ha : t.level.admits e.scope = true
    · obtain ⟨hlt, hnext⟩ := emit_history h ha
      obtain ⟨r', ns, hr', hsize, hns, hlength, hkeeps⟩ := ih hnext (hr.push (e.number (t.emit e).seq))
      rw [emit_level] at hlength hkeeps
      refine ⟨r', (t.emit e).seq :: ns, hr', hsize.trans (Ring.size_push _), ?_, ?_, ?_⟩
      · refine List.pairwise_cons.2 ⟨List.forall_mem_cons.2 ⟨hlt, fun n hn => ?_⟩, hns⟩
        exact Nat.lt_trans hlt ((List.pairwise_cons.1 hns).1 n hn)
      · simpa [Level.admitted, ha] using hlength
      · simpa [Level.admitted, ha] using hkeeps
    · have hsame : t.emit e = t := if_neg ha
      have hrest : t.level.admitted (e :: es) = t.level.admitted es := List.filter_cons_of_neg ha
      rw [hrest, List.foldl_cons, hsame]
      exact ih h hr

/-- **A ring keeps the last events** of those that the level admits, as many as it has slots, in the order in
    which they came; nothing of them changes but their numbers, which increase. -/
theorem emitted_last {size : Int} (h : t.history? = some (.empty size)) (es : List Event) :
    ∃ r numbers, (es.foldl emit t).history? = some r ∧
      r.toList = List.zipWith Event.number
        ((t.level.admitted es).drop ((t.level.admitted es).length - Ring.capacityOf size)) numbers ∧
      numbers.length = min (t.level.admitted es).length (Ring.capacityOf size) ∧
      numbers.Pairwise (· < ·) := by
  obtain ⟨r, ns, hr, hsize, hns, hlength, hkeeps⟩ := foldl_emit h (Ring.keeps_empty size) es
  have hcap : r.slots.size = Ring.capacityOf size := by simp [hsize, Ring.empty]
  have hlist := hkeeps.toList
  rw [List.nil_append, List.length_zipWith, hlength, Nat.min_self, hcap, List.drop_zipWith] at hlist
  refine ⟨r, _, hr, hlist, ?_, (List.pairwise_cons.1 hns).2.drop⟩
  rw [List.length_drop, hlength]
  omega

/-- Two slots after three spans and one that the level leaves out. -/
theorem emitted_last_round :
    let t : Trace := { level := .error, sink := .ring (.empty 2), seq := 7 }
    let event (scope : Scope) (name : String) : Event := { kind := .start, scope, name := lit name }
    let es := [event .pass "a", event .node "x", event .func "b", event .pass "c"]
    (es.foldl emit t).history?.map (·.toList) = some [(event .func "b").number 9, (event .pass "c").number 10] ∧
      ∃ r numbers, (es.foldl emit t).history? = some r ∧ numbers.length = 2 ∧ numbers.Pairwise (· < ·) ∧
        r.toList = List.zipWith Event.number [event .func "b", event .pass "c"] numbers := by
  intro t event es
  obtain ⟨r, numbers, hr, hlist, hlength, hincreases⟩ := @emitted_last t 2 rfl es
  exact ⟨by decide, r, numbers, hr, hlength, hincreases, hlist⟩

end Wacc.Trace
