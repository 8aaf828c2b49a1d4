/-
  The spelling of assembly.

  An instruction is written as an operation in capital letters, a blank, and arguments; none of its
  bytes is a colon or a control character, and the last one is no blank.
-/
import Wacc.Proofs.Arm.Walk
import Wacc.Proofs.Text.Basic

namespace Wacc.Arm

/-! ## Words -/

def isPlain (b : UInt8) : Bool := 32 ≤ b && b < 127 && b != 58

def Plain (t : Text) : Prop := t.all isPlain = true

structure IsWord (t : Text) : Prop where
  plain : Plain t
  last : t.getLast?.any (· != 32) = true

instance (t : Text) : Decidable (Plain t) := inferInstanceAs (Decidable (_ = _))

instance (t : Text) : Decidable (IsWord t) :=
  decidable_of_iff (Plain t ∧ t.getLast?.any (· != 32) = true) ⟨fun h => ⟨h.1, h.2⟩, fun h => ⟨h.1, h.2⟩⟩

variable {t : Text} {l : Line}

theorem plain_iff : Plain t ↔ ∀ b ∈ t, 32 ≤ b ∧ b < 127 ∧ b ≠ 58 := by
  simp [Plain, isPlain, and_assoc]

theorem Plain.append {t u : Text} (ht : Plain t) (hu : Plain u) : Plain (t ++ u) :=
  plain_iff.2 (List.forall_mem_append.2 ⟨plain_iff.1 ht, plain_iff.1 hu⟩)

theorem Plain.word {t u : Text} (ht : Plain t) (hu : IsWord u) : IsWord (t ++ u) := by
  refine ⟨ht.append hu.plain, ?_⟩
  have hl := hu.last
  cases hlast : u.getLast? with
  | none => rw [hlast] at hl; cases hl
  | some b => rw [hlast] at hl; rw [List.getLast?_append, hlast]; exact hl

theorem IsWord.ne_nil (h : IsWord t) : t ≠ [] := by
  rintro rfl
  exact absurd h.last (by decide)

theorem joinWith_isWord {ts : List Text} (h : ∀ t ∈ ts, IsWord t) (hne : ts ≠ []) :
    IsWord (Text.joinWith (lit ", ") ts) := by
  induction ts with
  | nil => exact absurd rfl hne
  | cons t ts ih =>
    obtain ⟨ht, hts⟩ := List.forall_mem_cons.1 h
    cases ts with
    | nil => exact ht
    | cons u ts => exact (ht.plain.append (by rfl)).word (ih hts (by simp))

theorem isWord_of_bytes (hne : t ≠ []) (h : ∀ b ∈ t, 32 < b ∧ b < 127 ∧ b ≠ 58) : IsWord t := by
  refine ⟨plain_iff.2 fun b hb => ⟨UInt8.le_of_lt (h b hb).1, (h b hb).2⟩, ?_⟩
  rw [List.getLast?_eq_some_getLast hne]
  have hb := (h _ (List.getLast_mem hne)).1
  simpa using (UInt8.ne_of_lt hb).symm

theorem decimal_isWord (n : Nat) : IsWord (decimal n) := by
  refine isWord_of_bytes (decimal_ne_nil n) fun b hb => ?_
  obtain ⟨h1, h2⟩ := decimal_isDigit n b hb
  rw [UInt8.le_iff_toNat_le] at h1 h2
  refine ⟨UInt8.lt_iff_toNat_lt.2 ?_, UInt8.lt_iff_toNat_lt.2 ?_, ?_⟩
  · simp only [UInt8.reduceToNat] at h1 ⊢; omega
  · simp only [UInt8.reduceToNat] at h2 ⊢; omega
  · rintro rfl; exact absurd h2 (by decide)

theorem decimalInt_isWord (n : Int) : IsWord (decimalInt n) := by
  cases n with
  | ofNat n => exact decimal_isWord n
  | negSucc n => exact (show Plain ['-'.toUInt8] from rfl).word (decimal_isWord (n + 1))

theorem isIdentPart_word {b : UInt8} (h : Scan.isIdentPart b = true) : 32 < b ∧ b < 127 ∧ b ≠ 58 := by
  simp only [Scan.isIdentPart, Scan.isIdentStart, Scan.isDigit, Bool.or_eq_true, Bool.and_eq_true, beq_iff_eq,
    decide_eq_true_eq] at h
  replace h : ((b = 95 ∨ 65 ≤ b ∧ b ≤ 90) ∨ 97 ≤ b ∧ b ≤ 122) ∨ 48 ≤ b ∧ b ≤ 57 := h
  simp only [UInt8.le_iff_toNat_le, UInt8.lt_iff_toNat_lt, ne_eq, ← UInt8.toNat_inj, UInt8.reduceToNat] at h ⊢
  omega

theorem isName_isWord (h : IsName t) : IsWord t := by
  cases t with
  | nil => cases h
  | cons b t =>
    refine isWord_of_bytes (by simp) (List.forall_mem_cons.2 ⟨isIdentPart_word ?_, fun c hc => ?_⟩)
    · rw [Scan.isIdentPart, h.1, Bool.true_or]
    · exact isIdentPart_word (List.all_eq_true.1 h.2 c hc)

theorem Reg.render_isWord (r : Reg) : IsWord r.render := by cases r <;> exact ⟨rfl, rfl⟩

theorem Label.render_isWord {l : Label} (h : l.Named) : IsWord l.render := by
  cases l with
  | main => exact ⟨rfl, rfl⟩
  | func n => exact (show Plain (lit "f_") from rfl).word (isName_isWord h)
  | place n => exact (show Plain (lit "L") from rfl).word (decimal_isWord n)
  | const n => exact (show Plain (lit "msg_") from rfl).word (decimal_isWord n)
  | routine r => cases r <;> exact ⟨rfl, rfl⟩

theorem Callee.render_isWord {f : Callee} (h : f.Named) : IsWord f.render := by
  cases f with
  | label l => exact Label.render_isWord h
  | extern_ e => cases e <;> exact ⟨rfl, rfl⟩

theorem Operand.render_isWord (v : Operand) : IsWord v.render := by
  cases v with
  | imm n => exact (show Plain (lit "#") from rfl).word (decimalInt_isWord n)
  | reg r => exact r.render_isWord
  | lsl r n => exact (r.render_isWord.plain.append (by rfl)).word (decimal_isWord n)
  | asr r n => exact (r.render_isWord.plain.append (by rfl)).word (decimal_isWord n)

theorem Address.render_isWord (a : Address) : IsWord a.render := by
  have hopen : Plain (lit "[") := rfl
  have hclose : IsWord (lit "]") := ⟨rfl, rfl⟩
  cases a with
  | offset b n =>
    rw [Address.render]
    split_ifs
    · exact (hopen.append b.render_isWord.plain).word hclose
    · exact (((hopen.append b.render_isWord.plain).append (by rfl)).append
        (decimalInt_isWord n).plain).word hclose
  | index b i =>
    exact (((hopen.append b.render_isWord.plain).append (by rfl)).append i.render_isWord.plain).word
      hclose

theorem names_isWord {rs : List Reg} (hne : rs ≠ []) :
    IsWord (Text.joinWith (lit ", ") (rs.map Reg.render)) := by
  refine joinWith_isWord (fun t ht => ?_) (by simpa using hne)
  obtain ⟨r, -, rfl⟩ := List.mem_map.1 ht
  exact r.render_isWord

theorem regList_isWord (rs : List Reg) : IsWord (regList rs) := by
  have hopen : Plain (lit "\x7b") := rfl
  refine (hopen.append ?_).word ⟨rfl, rfl⟩
  cases rs with
  | nil => rfl
  | cons r rs => exact (names_isWord (by simp)).plain

/-! ## Instructions -/

def isOp (t : Text) : Bool := !t.isEmpty && t.all fun b => 65 ≤ b && b ≤ 90

def Instr.op : Instr → Text
  | .push _ => lit "PUSH"
  | .pop _ => lit "POP"
  | .mov c _ _ => lit "MOV" ++ c.render
  | .number _ _ | .load .word _ _ => lit "LDR"
  | .address c _ _ => lit "LDR" ++ c.render
  | .load .byte _ _ => lit "LDRSB"
  | .store .word _ _ | .pushStore .word _ _ => lit "STR"
  | .store .byte _ _ | .pushStore .byte _ _ => lit "STRB"
  | .alu op _ _ _ => op.name
  | .smull _ _ _ _ => lit "SMULL"
  | .cmp _ _ => lit "CMP"
  | .branch c _ => lit "B" ++ c.render
  | .call c _ => lit "BL" ++ c.render

def Instr.args : Instr → List Text
  | .push rs | .pop rs => [regList rs]
  | .mov _ d v => [d.render, v.render]
  | .number d n => [d.render, lit "=" ++ decimalInt n]
  | .address _ d l => [d.render, lit "=" ++ l.render]
  | .load _ d a => [d.render, a.render]
  | .store _ r a => [r.render, a.render]
  | .pushStore _ r n => [r.render, lit "[sp, #-" ++ decimal n ++ lit "]!"]
  | .alu _ d a b => [d.render, a.render, b.render]
  | .smull lo hi a b => [lo.render, hi.render, a.render, b.render]
  | .cmp a b => [a.render, b.render]
  | .branch _ l => [l.render]
  | .call _ f => [f.render]

theorem Instr.render_eq (i : Instr) : i.render = spell i.op i.args := by
  cases i with
  | load w | store w | pushStore w => cases w <;> rfl
  | _ => rfl

theorem Instr.op_isOp (i : Instr) : isOp i.op = true := by
  cases i with
  | load w | store w | pushStore w => cases w <;> rfl
  | mov c | address c | branch c | call c => cases c <;> rfl
  | alu op => cases op <;> rfl
  | _ => rfl

theorem Instr.args_isWord {i : Instr} (h : i.Named) : IsWord (Text.joinWith (lit ", ") i.args) := by
  have hequals : Plain (lit "=") := rfl
  refine joinWith_isWord ?_ (by cases i <;> simp [Instr.args])
  cases i with
  | push rs => simp [Instr.args, regList_isWord]
  | pop rs => simp [Instr.args, regList_isWord]
  | mov c d v => simp [Instr.args, d.render_isWord, v.render_isWord]
  | number d n => simp [Instr.args, d.render_isWord, hequals.word (decimalInt_isWord n)]
  | address c d l => simp [Instr.args, d.render_isWord, hequals.word (Label.render_isWord h)]
  | load w d a => simp [Instr.args, d.render_isWord, a.render_isWord]
  | store w r a => simp [Instr.args, r.render_isWord, a.render_isWord]
  | pushStore w r n =>
    have hstep : IsWord (lit "[sp, #-" ++ decimal n ++ lit "]!") :=
      ((show Plain (lit "[sp, #-") from rfl).append (decimal_isWord n).plain).word ⟨rfl, rfl⟩
    exact List.forall_mem_cons.2 ⟨r.render_isWord, List.forall_mem_singleton.2 hstep⟩
  | alu op d a b => simp [Instr.args, d.render_isWord, a.render_isWord, b.render_isWord]
  | smull lo hi a b =>
    simp [Instr.args, lo.render_isWord, hi.render_isWord, a.render_isWord, b.render_isWord]
  | cmp a b => simp [Instr.args, a.render_isWord, b.render_isWord]
  | branch c l => simp [Instr.args, Label.render_isWord h]
  | call c f => simp [Instr.args, Callee.render_isWord h]

theorem isOp_iff : isOp t = true ↔ t ≠ [] ∧ ∀ b ∈ t, 65 ≤ b ∧ b ≤ 90 := by
  simp [isOp]

theorem isOp_plain (h : isOp t = true) : Plain t ∧ 32 ∉ t := by
  obtain ⟨-, hb⟩ := isOp_iff.1 h
  refine ⟨plain_iff.2 fun b hm => ?_, fun hm => absurd (hb 32 hm).1 (by decide)⟩
  obtain ⟨h1, h2⟩ := hb b hm
  refine ⟨UInt8.le_trans (by decide) h1, UInt8.lt_of_le_of_lt h2 (by decide), ?_⟩
  rintro rfl
  exact absurd h1 (by decide)

theorem spell_isWord {op : Text} {args : List Text} (hop : isOp op = true)
    (hargs : IsWord (Text.joinWith (lit ", ") args)) :
    IsWord (spell op args) ∧ ∃ b, (spell op args).head? = some b ∧ 65 ≤ b ∧ b ≤ 90 := by
  obtain ⟨hne, hb⟩ := isOp_iff.1 hop
  refine ⟨((isOp_plain hop).1.append (by rfl)).word hargs, ?_⟩
  obtain ⟨b, op, rfl⟩ := List.exists_cons_of_ne_nil hne
  exact ⟨b, rfl, hb b (List.mem_cons_self ..)⟩

/-! ## Lines -/

def Line.Named : Line → Prop
  | .label l | .global l => l.Named
  | .instr i => i.Named
  | _ => True

theorem Line.InCode.named (h : l.InCode) : l.Named := by
  cases l with
  | label l => exact h
  | instr i => exact h
  | pool => trivial
  | _ => cases h

def Line.shown : Line → Text
  | .label l => l.render ++ lit ":"
  | .instr i => i.render
  | .data => lit ".data"
  | .text => lit ".text"
  | .global l => lit ".global " ++ l.render
  | .pool => lit ".ltorg"
  | .word n => lit ".word " ++ decimal n
  | .ascii t => lit ".ascii " ++ asciiQuote t

theorem tight_of_word (h : IsWord t) (hb : ∃ b, t.head? = some b ∧ b ≠ 32) : Utf8.Tight t := by
  have hbytes := plain_iff.1 h.plain
  have hink {b : UInt8} (hm : b ∈ t) (hne : b ≠ 32) : Utf8.IsInk b :=
    ⟨UInt8.lt_of_le_of_ne (hbytes b hm).1 hne.symm, (hbytes b hm).2.1⟩
  refine ⟨fun b hm => ⟨(hbytes b hm).1, (hbytes b hm).2.1⟩, ?_, ?_⟩
  · obtain ⟨b, hb, hne⟩ := hb
    exact ⟨b, hb, hink (List.mem_of_head? hb) hne⟩
  · have hl := List.getLast?_eq_some_getLast h.ne_nil
    have hne := h.last
    rw [hl] at hne
    exact ⟨_, hl, hink (List.getLast_mem _) (by simpa using hne)⟩

theorem asciiByte_bytes (c : UInt8) : ∀ b ∈ asciiByte c, 32 ≤ b ∧ b < 127 := by
  have hescape {e : UInt8} (he : 32 ≤ e ∧ e < 127) : ∀ b ∈ ([92, e] : Text), 32 ≤ b ∧ b < 127 := by
    simp [he]
  unfold asciiByte
  split_ifs with _ _ _ _ _ h
  · exact hescape (e := 34) (by decide)
  · exact hescape (e := 92) (by decide)
  · exact hescape (e := 110) (by decide)
  · exact hescape (e := 116) (by decide)
  · exact hescape (e := 114) (by decide)
  · -- a byte that is not printable is written with three digits
    refine List.forall_mem_cons.2 ⟨by decide, List.forall_mem_append.2 ⟨fun b hb => ?_, fun b hb => ?_⟩⟩
    · rw [List.eq_of_mem_replicate hb]; decide
    · obtain ⟨h1, h2⟩ := Text.digits_isDigit (by omega) _ b hb
      exact ⟨UInt8.le_trans (by decide) h1, UInt8.lt_of_le_of_lt h2 (by decide)⟩
  · simp only [Bool.or_eq_true, decide_eq_true_eq, not_or, UInt8.not_lt] at h
    exact List.forall_mem_singleton.2 ⟨h.1, UInt8.lt_of_le_of_lt h.2 (by decide)⟩

theorem Label.head_render (l : Label) : ∃ b, l.render.head? = some b ∧ b ≠ 32 := by
  cases l with
  | routine r => cases r <;> exact ⟨_, rfl, by decide⟩
  | _ => exact ⟨_, rfl, by decide⟩

theorem Line.shown_tight (h : l.Named) : Utf8.Tight l.shown := by
  cases l with
  | label l =>
    obtain ⟨b, hb, hne⟩ := l.head_render
    have ht := tight_of_word (Label.render_isWord h) ⟨b, hb, hne⟩
    have hcolon : lit ":" = [58] := rfl
    rw [Line.shown, hcolon]
    exact .append ht.bytes (by simp) ht.first ⟨58, rfl, by decide, by decide⟩
  | instr i =>
    obtain ⟨hword, b, hb, hle, -⟩ := spell_isWord i.op_isOp (i.args_isWord h)
    rw [Line.shown, i.render_eq]
    exact tight_of_word hword ⟨b, hb, by rintro rfl; exact absurd hle (by decide)⟩
  | data => exact tight_of_word ⟨rfl, rfl⟩ ⟨_, rfl, by decide⟩
  | text => exact tight_of_word ⟨rfl, rfl⟩ ⟨_, rfl, by decide⟩
  | pool => exact tight_of_word ⟨rfl, rfl⟩ ⟨_, rfl, by decide⟩
  | global l =>
    exact tight_of_word ((show Plain (lit ".global ") from rfl).word (Label.render_isWord h)) ⟨_, rfl, by decide⟩
  | word n =>
    exact tight_of_word ((show Plain (lit ".word ") from rfl).word (decimal_isWord n)) ⟨_, rfl, by decide⟩
  | ascii t =>
    have hopen : lit ".ascii " = [46, 97, 115, 99, 105, 105, 32] := rfl
    have hquote : lit "\"" = [34] := rfl
    have hinside : ∀ b ∈ t.flatMap asciiByte, 32 ≤ b ∧ b < 127 := fun b hb => by
      obtain ⟨c, -, hc⟩ := List.mem_flatMap.1 hb
      exact asciiByte_bytes c b hc
    rw [Line.shown, asciiQuote, hopen, hquote]
    exact .append (by simp) (List.forall_mem_append.2 ⟨List.forall_mem_append.2 ⟨by simp, hinside⟩, by simp⟩)
      ⟨46, rfl, by decide, by decide⟩ ⟨34, List.getLast?_concat .., by decide, by decide⟩

theorem Line.trim_render (h : l.Named) : Utf8.trimSpace l.render = l.shown := by
  have ht := Line.shown_tight h
  cases l with
  | label l => exact Utf8.trimSpace_tight ht
  | _ => exact Utf8.trimSpace_tab ht

theorem Line.newline_not_mem (h : l.Named) : 10 ∉ l.render := by
  have ht := Line.shown_tight h
  have hmem : 10 ∉ l.shown := fun hm => absurd (ht.bytes 10 hm).1 (by decide)
  cases l with
  | label l => exact hmem
  | _ => exact fun hm => hmem ((List.mem_cons.1 hm).resolve_left (by decide))

theorem splitOn_render {ls : List Line} (h : ∀ l ∈ ls, l.Named) :
    Text.splitOn '\n'.toUInt8 (render ls) = ls.map Line.render ++ [[]] := by
  have hparts : ∀ t ∈ ls.map Line.render, 10 ∉ t := fun t ht => by
    obtain ⟨l, hl, rfl⟩ := List.mem_map.1 ht
    exact Line.newline_not_mem (h l hl)
  have hsplit := Text.splitOn_flatMap hparts
  rw [List.flatMap_map] at hsplit
  exact hsplit

end Wacc.Arm
