/-
  Lines and columns of a file.

  The bytes before an offset are some full lines, each with its line end, and the start of one more
  line.  The line and the column of the offset count these, and the line is found again by its number.
-/
import Mathlib
import Wacc.Source.File

namespace Wacc

namespace File

/-! ## Cutting at line ends -/

abbrev lineEnd : UInt8 := '\n'.toUInt8

def Full (t : Text) : Prop := t = [] ∨ ∃ u, t = u ++ [lineEnd]

def sinceBreak (t : Text) : Nat := (t.reverse.takeWhile (· ≠ lineEnd)).length

theorem toNat_word {n : Nat} (h : n < 2 ^ 32) : n.toUInt32.toNat = n := UInt32.toNat_ofNat_of_lt' h

theorem newlinesFrom_append (off : UInt32) (t u : Text) :
    newlinesFrom off (t ++ u) = newlinesFrom off t ++ newlinesFrom (off + t.length.toUInt32) u := by
  induction t generalizing off with
  | nil => simp [newlinesFrom]
  | cons b t ih =>
    have hoff : off + 1 + t.length.toUInt32 = off + (b :: t).length.toUInt32 := by
      rw [List.length_cons, Nat.add_comm, UInt32.add_assoc]
      exact congrArg (off + ·) (UInt32.ofNat_add 1 t.length).symm
    rw [List.cons_append, newlinesFrom, newlinesFrom, ih, hoff]
    split_ifs
    · rfl
    · rfl

theorem newlinesFrom_eq_nil {off : UInt32} {t : Text} (h : lineEnd ∉ t) : newlinesFrom off t = [] := by
  induction t generalizing off with
  | nil => rfl
  | cons b t ih =>
    obtain ⟨hb, ht⟩ := not_or.1 (List.mem_cons.not.1 h)
    rw [newlinesFrom, if_neg (Ne.symm hb), ih ht]

theorem length_newlinesFrom (off : UInt32) (t : Text) : (newlinesFrom off t).length = t.count lineEnd := by
  induction t generalizing off with
  | nil => rfl
  | cons b t ih =>
    rw [newlinesFrom, List.count_cons, ← ih (off + 1)]
    split_ifs <;> simp_all

theorem mem_newlinesFrom {a : Nat} {t : Text} {x : UInt32} (hlen : a + t.length < 2 ^ 32)
    (h : x ∈ newlinesFrom a.toUInt32 t) : a ≤ x.toNat ∧ x.toNat < a + t.length := by
  induction t generalizing a with
  | nil => cases h
  | cons b t ih =>
    rw [List.length_cons] at hlen ⊢
    have hnext : a.toUInt32 + 1 = (a + 1).toUInt32 := (UInt32.ofNat_add a 1).symm
    rw [newlinesFrom, hnext] at h
    have hrest : x ∈ newlinesFrom (a + 1).toUInt32 t → a ≤ x.toNat ∧ x.toNat < a + (t.length + 1) := fun h =>
      (ih (by omega) h).imp (by omega) (by omega)
    split_ifs at h
    · obtain rfl | h := List.mem_cons.1 h
      · have := toNat_word (show a < 2 ^ 32 by omega)
        omega
      · exact hrest h
    · exact hrest h

/-- A file that is cut inside one of its lines: full lines, the start of the line, and the rest. -/
structure CutAt (f : File) (p b rest : Text) : Prop where
  content : f.content = p ++ b ++ rest
  full : Full p
  inside : lineEnd ∉ b
  small : f.content.length < 2 ^ 32

section
variable {f : File} {p b rest : Text}

theorem CutAt.length (h : CutAt f p b rest) : f.content.length = p.length + b.length + rest.length := by
  rw [h.content, List.length_append, List.length_append]

theorem CutAt.newlines (h : CutAt f p b rest) :
    f.newlines = newlinesFrom 0 p ++ newlinesFrom (p.length + b.length).toUInt32 rest := by
  have hoff : (0 : UInt32) + (p ++ b).length.toUInt32 = (p.length + b.length).toUInt32 := by
    rw [List.length_append, UInt32.zero_add]
  rw [File.newlines, h.content, newlinesFrom_append, newlinesFrom_append, newlinesFrom_eq_nil h.inside, hoff,
    List.append_nil]

theorem CutAt.position (h : CutAt f p b rest) : positionIn f.newlines (p.length + b.length).toUInt32 =
    ⟨(1 + p.count lineEnd).toUInt32, (1 + b.length).toUInt32⟩ := by
  have hsize := h.length
  have hsmall := h.small
  have hoff := toNat_word (show p.length + b.length < 2 ^ 32 by omega)
  have hbefore : f.newlines.takeWhile (· < (p.length + b.length).toUInt32) = newlinesFrom 0 p := by
    rw [h.newlines, List.takeWhile_append_of_pos, List.takeWhile_eq_nil_iff.2, List.append_nil]
    · intro hpos
      have := mem_newlinesFrom (by omega) (List.getElem_mem hpos)
      simp only [List.get_eq_getElem, decide_eq_true_eq, UInt32.lt_iff_toNat_lt, hoff]
      omega
    · intro x hx
      have := mem_newlinesFrom (a := 0) (by omega) hx
      simp only [decide_eq_true_eq, UInt32.lt_iff_toNat_lt, hoff]
      omega
  have hcol : (p.length + b.length).toUInt32 - p.length.toUInt32 + 1 = (1 + b.length).toUInt32 := by
    rw [Nat.add_comm 1]
    show UInt32.ofNat _ - UInt32.ofNat _ + 1 = UInt32.ofNat _
    rw [UInt32.ofNat_add, UInt32.ofNat_add, UInt32.add_comm (UInt32.ofNat p.length), UInt32.add_sub_cancel]
    rfl
  rw [positionIn, hbefore, length_newlinesFrom, Nat.add_comm 1, ← hcol]
  -- the last line end stands directly before the line
  obtain rfl | ⟨u, rfl⟩ := h.full
  · rfl
  · rw [newlinesFrom_append]
    simp [newlinesFrom]

theorem CutAt.line (h : CutAt f p b rest) (hrest : rest = [] ∨ ∃ u, rest = lineEnd :: u) :
    f.line (1 + p.count lineEnd).toUInt32 = b := by
  have hsize := h.length
  have hsmall := h.small
  have hcount : p.count lineEnd ≤ p.length := List.count_le_length
  -- only in a file of line ends can the number of a line be too large for a word
  by_cases hwrap : 1 + p.count lineEnd = 2 ^ 32
  · rw [hwrap, List.length_eq_zero_iff.1 (show b.length = 0 by omega)]
    rfl
  have hnum := toNat_word (show 1 + p.count lineEnd < 2 ^ 32 by omega)
  have hstart : f.lineStart? (1 + p.count lineEnd) = some p.length.toUInt32 := by
    obtain rfl | ⟨u, rfl⟩ := h.full
    · rfl
    · have hlen := length_newlinesFrom 0 u
      have hu : 1 + (u ++ [lineEnd]).count lineEnd = u.count lineEnd + 2 := by simp; omega
      rw [hu, lineStart?, h.newlines, newlinesFrom_append, List.append_assoc,
        List.getElem?_append_right hlen.le, hlen, Nat.sub_self]
      simp [newlinesFrom]
  have hstop : (f.newlines[1 + p.count lineEnd - 1]?).getD f.content.length.toUInt32 =
      (p.length + b.length).toUInt32 := by
    have hlen := length_newlinesFrom 0 p
    rw [h.newlines, Nat.add_sub_cancel_left, List.getElem?_append_right hlen.le, hlen, Nat.sub_self]
    obtain rfl | ⟨u, rfl⟩ := hrest
    · simp [newlinesFrom, hsize]
    · simp [newlinesFrom]
  have hp := toNat_word (show p.length < 2 ^ 32 by omega)
  have hb := toNat_word (show p.length + b.length < 2 ^ 32 by omega)
  rw [File.line, hnum, hstart]
  simp only [hstop, UInt32.lt_iff_toNat_lt, hp, hb, slice]
  rw [h.content, if_neg (by omega), List.append_assoc, List.drop_left, Nat.add_sub_cancel_left, List.take_left]

end

/-! ## Positions -/

def column (f : File) (o : Nat) : Nat := 1 + sinceBreak (f.content.take o)

section
variable {f : File} {o : Nat}

end

end File

end Wacc
