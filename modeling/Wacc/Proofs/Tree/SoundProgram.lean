/-
  What the rules for statements, functions and programs read.
-/
import Wacc.Proofs.Tree.Sound

namespace Wacc

namespace Rule

variable {r s s' : Reader} {m : Nat} {done : List Tree}

/-! ## Statements -/

theorem declare_sound : Sound (Grammar.IsStat false) declare := by
  intro r hr
  simp only [declare, symbol, wp_steps]
  refine (type_sound r hr).weaken fun t s1 h1 => ?_
  refine h1.call ident_sound fun name s2 h2 => ?_
  refine h2.expect (by decide) fun c s3 h3 => ?_
  cases c with
  | none => exact h3.noToken
  | some _ =>
    simp only [wp_steps]
    refine h3.call value_sound fun v s4 h4 => h4.fold ?_
    rintro _ ⟨⟨⟨⟨t, ht⟩, name, text, hname⟩, -, -⟩, v, hv⟩
    refine built [t, name, v] ?_ (by simp [NodeKind.layout]) fun _ _ _ h => .gather h.row (by simp) rfl
    rw [List.map_cons, List.map_cons, List.map_singleton, hname]
    exact .declare ht hv

theorem assign_sound : Sound (Grammar.IsStat false) assign := by
  intro r hr
  simp only [assign, symbol, wp_steps]
  refine (place_sound _ r hr (Nat.lt_succ_self _)).weaken fun l s1 h1 => ?_
  cases l with
  | none => exact h1.noTree
  | some l =>
    simp only [wp_steps]
    refine h1.expect (by decide) fun c s2 h2 => ?_
    cases c with
    | none => exact h2.noToken
    | some _ =>
      simp only [wp_steps]
      refine h2.call value_sound fun v s3 h3 => h3.fold ?_
      rintro _ ⟨⟨⟨l, hl⟩, -, -⟩, v, hv⟩
      exact built [l, v] (.assign hl hv) (by simp [NodeKind.layout]) fun _ _ _ h => .gather h.row (by simp) rfl

theorem Onward.resync (h : s.eof.kind = .eof) : Wp resync (fun _ s' => Onward s s') s := by
  have hsuffix := Reader.skipToBorder_suffix s.last s.unread
  exact ⟨h, hsuffix, le_rfl, fun _ h => (h.drop hsuffix (Reader.skipToBorder_holds h.last h.unread)).on⟩

theorem stats_sound {n : Nat} {stat : Rule (Option Tree)} (hstat : SoundUnder m (Grammar.IsStat false) stat)
    {r0 r : Reader} (hm : r.unread.length < m) (hn : r.unread.length < n) (hr : Upto r0 r (Ended .semicolon
      (Grammar.IsStat false) done)) :
    Wp (stats stat n done) (fun ss s => Upto r0 s fun ps => ss ≠ [] ∧ Listed .semicolon (Grammar.IsStat false) ss ps) r := by
  induction n generalizing done r with
  | zero => omega
  | succ n ih =>
    simp only [stats, statsStep, wp_steps]
    refine (hstat r hr.onward.ended hm).weaken fun o s ho => ?_
    have hle := ho.onward.length
    by_cases hfailed : r.problems.length < s.problems.length
    · simp only [hfailed, decide_true, if_true]
      refine (Onward.resync ho.onward.ended).weaken fun _ s1 h1 => ?_
      have hdirty : ∀ {s2 : Reader} {Φ : List Piece → Prop}, Onward s1 s2 → Upto r0 s2 Φ := by
        intro s2 Φ h2
        have h := ho.onward.trans (h1.trans h2)
        refine .dirty (hr.onward.trans h) ?_
        have := hr.onward.problems
        have := (h1.trans h2).problems
        omega
      have hle1 := h1.length
      simp only [beq_iff_eq]
      split_ifs with hk
      · have hlt := length_advance h1.ended (by rw [hk]; decide)
        exact ih (by omega) (by omega) (hdirty (.advance h1.ended))
      · exact hdirty (.refl h1.ended)
    · simp only [hfailed, decide_false, Bool.false_eq_true, if_false, beq_iff_eq]
      split_ifs with hk
      · have hsemi := Upto.takeOf ho.onward.ended hk (by decide)
        have hlt := length_advance ho.onward.ended (by rw [hk]; decide)
        refine ih (by omega) (by omega) ((hr.seq <| ho.seq hsemi).map ?_)
        rintro _ ⟨hdone, ⟨_, ht⟩, -, -⟩
        exact hdone.concat ht
      · refine (hr.seq ho).map ?_
        rintro _ ⟨hdone, _, ht⟩
        exact ⟨by simp, hdone.last ht⟩

theorem seq_sound {stat : Rule (Option Tree)} (hstat : SoundUnder m (Grammar.IsStat false) stat) :
    SoundUnder m (Grammar.IsStat true) (seq stat) := by
  intro r hr hm
  simp only [seq, wp_steps]
  have hstart : Upto r r (Ended .semicolon (Grammar.IsStat false) []) := (Upto.refl hr).map fun _ h => h ▸ .nil
  refine (stats_sound hstat hm (Nat.lt_succ_self _) hstart).weaken fun ss s hs => hs.fold ?_
  rintro ps ⟨hne, hss, hw, htrees⟩
  match ss, hne, hss with
  | [t], _, hss =>
    refine ⟨t, rfl, .one (hss t List.mem_cons_self), by simpa using hw, fun f a b h => ?_⟩
    exact Tree.Row.mem (htrees ▸ h.row) List.mem_cons_self
  | a :: b :: ss, _, hss =>
    exact built _ (.seq (by simp) (by simpa using hss)) hw fun f a b h => .gather (htrees ▸ h.row) (by simp) rfl

section
variable {body stat : Rule (Option Tree)}

theorem ifStat_sound (hr : r.eof.kind = .eof) (hk : r.peek.kind = .kwIf) (hm : r.unread.length < m + 1)
    (hbody : SoundUnder m (Grammar.IsStat true) body) :
    Wp (ifStat body) (fun o s => Upto r s (Tree? (Grammar.IsStat false) o)) r := by
  have hword := Upto.takeOf hr hk (by decide)
  have hlt := length_advance hr (by rw [hk]; decide)
  simp only [ifStat, keyword, wp_steps]
  refine (expr_sound _ hword.onward.ended).weaken fun c s1 h1 => ?_
  refine h1.expect (by decide) fun _ s2 h2 => ?_
  refine h2.callUnder hbody (by omega) fun a s3 h3 => ?_
  simp only [beq_iff_eq]
  split_ifs with he
  · have helse := h3.seq (.takeOf h3.onward.ended he (by decide))
    refine helse.callUnder hbody (by omega) fun b s4 h4 => ?_
    refine h4.expect (by decide) fun _ s5 h5 => (hword.seq h5).fold ?_
    rintro _ ⟨⟨-, -⟩, ⟨⟨⟨⟨⟨c, hc⟩, -, -⟩, a, ha⟩, -, -⟩, b, hb⟩, -, -⟩
    exact built [c, a, b] (.ifElse hc ha hb) (by simp [NodeKind.layout])
      fun _ _ _ h => h.makeCover (by simp) (by simp) rfl
  · refine h3.expect (by decide) fun _ s4 h4 => (hword.seq h4).fold ?_
    rintro _ ⟨⟨-, -⟩, ⟨⟨⟨c, hc⟩, -, -⟩, a, ha⟩, -, -⟩
    exact built [c, a] (.ifThen hc ha) (by simp [NodeKind.layout])
      fun _ _ _ h => h.makeCover (by simp) (by simp) rfl

theorem whileStat_sound (hr : r.eof.kind = .eof) (hk : r.peek.kind = .kwWhile) (hm : r.unread.length < m + 1)
    (hbody : SoundUnder m (Grammar.IsStat true) body) :
    Wp (whileStat body) (fun o s => Upto r s (Tree? (Grammar.IsStat false) o)) r := by
  have hword := Upto.takeOf hr hk (by decide)
  have hlt := length_advance hr (by rw [hk]; decide)
  simp only [whileStat, keyword, wp_steps]
  refine (expr_sound _ hword.onward.ended).weaken fun c s1 h1 => ?_
  refine h1.expect (by decide) fun _ s2 h2 => ?_
  refine h2.callUnder hbody (by omega) fun b s3 h3 => ?_
  refine h3.expect (by decide) fun _ s4 h4 => (hword.seq h4).fold ?_
  rintro _ ⟨⟨-, -⟩, ⟨⟨⟨c, hc⟩, -, -⟩, b, hb⟩, -, -⟩
  exact built [c, b] (.while hc hb) (by simp [NodeKind.layout]) fun _ _ _ h => h.makeCover (by simp) (by simp) rfl

theorem forStat_sound (hr : r.eof.kind = .eof) (hk : r.peek.kind = .kwFor) (hm : r.unread.length < m + 1)
    (hstat : SoundUnder m (Grammar.IsStat false) stat) (hbody : SoundUnder m (Grammar.IsStat true) body) :
    Wp (forStat stat body) (fun o s => Upto r s (Tree? (Grammar.IsStat false) o)) r := by
  have hword := Upto.takeOf hr hk (by decide)
  have hlt := length_advance hr (by rw [hk]; decide)
  simp only [forStat, keyword, symbol, wp_steps]
  refine (Upto.refl hword.onward.ended).expect (by decide) fun o s1 h1 => ?_
  cases o with
  | none => exact (hword.seq h1.clear).noToken
  | some _ =>
    simp only [wp_steps]
    refine h1.callUnder hstat (by omega) fun i s2 h2 => ?_
    refine h2.expect (by decide) fun _ s3 h3 => ?_
    refine h3.call expr_sound fun c s4 h4 => ?_
    refine h4.expect (by decide) fun _ s5 h5 => ?_
    refine h5.callUnder hstat (by omega) fun st s6 h6 => ?_
    refine h6.expect (by decide) fun _ s7 h7 => ?_
    refine h7.expect (by decide) fun _ s8 h8 => ?_
    refine h8.callUnder hbody (by omega) fun b s9 h9 => ?_
    refine h9.expect (by decide) fun _ s0 h0 => (hword.seq h0).fold ?_
    rintro _ ⟨⟨-, -⟩, ⟨⟨⟨⟨⟨⟨⟨⟨⟨rfl, -, -⟩, i, hi⟩, -, -⟩, c, hc⟩, -, -⟩, st, hst⟩, -, -⟩, -, -⟩, b, hb⟩, -, -⟩
    exact built [i, c, st, b] (.for hi hc hst hb) (by simp [NodeKind.layout])
      fun _ _ _ h => h.makeCover (by simp) (by simp) rfl

theorem blockStat_sound (hr : r.eof.kind = .eof) (hk : r.peek.kind = .kwBegin) (hm : r.unread.length < m + 1)
    (hbody : SoundUnder m (Grammar.IsStat true) body) :
    Wp (blockStat body) (fun o s => Upto r s (Tree? (Grammar.IsStat false) o)) r := by
  have hword := Upto.takeOf hr hk (by decide)
  have hlt := length_advance hr (by rw [hk]; decide)
  simp only [blockStat, keyword, wp_steps]
  refine (hbody _ hword.onward.ended (by omega)).weaken fun b s1 h1 => ?_
  refine (hword.seq h1).expect (by decide) fun _ s2 h2 => h2.fold ?_
  rintro _ ⟨⟨⟨-, -⟩, b, hb⟩, -, -⟩
  exact built [b] (.block hb) (by simp [NodeKind.layout]) fun _ _ _ h => h.makeCover (by simp) (by simp) rfl

end

theorem layout_word {k : Kind} {n : NodeKind} (h : wordKind? k = some n) (e : List Terminal) :
    Tree.isWord n = true ∧ k ∈ Kind.keywords ++ Kind.symbols ∧ n.layout [] [e] = k.terminal :: e ∧
      n.isCopy [] = false := by
  cases k <;> cases h <;> exact ⟨rfl, by decide, rfl, rfl⟩

theorem stat_sound (n : Nat) : SoundUnder n (Grammar.IsStat false) (stat n) := by
  induction n with
  | zero => exact fun r _ hm => absurd hm (Nat.not_lt_zero _)
  | succ n ih =>
    intro r hr hm
    have hseq := seq_sound ih
    simp only [stat, statStep, wp_steps]
    cases hw : wordKind? r.peek.kind with
    | some k =>
      simp only [wp_steps]
      have hkind := fun e => layout_word hw e
      have hword := Upto.takeOf hr rfl (hkind []).2.1
      refine hword.call expr_sound fun _ s h => h.fold ?_
      rintro _ ⟨⟨-, -⟩, e, he⟩
      refine built [e] (.word (hkind []).1 he) ?_ fun _ _ _ h => h.make (by simp) (hkind []).2.2.2
      simp [(hkind e.unparse).2.2.1]
    | none =>
      simp only
      split
      case h_1 hk =>
        simp only [wp_steps]
        refine (Upto.takeOf hr hk (by decide)).fold ?_
        rintro _ ⟨-, -⟩
        exact built [] .skip rfl fun _ _ _ h => h.make (by simp) rfl
      case h_2 hk =>
        simp only [wp_steps]
        have hword := Upto.takeOf hr hk (by decide)
        refine (place_sound _ _ hword.onward.ended (Nat.lt_succ_self _)).weaken fun _ s h => (hword.seq h).fold ?_
        rintro _ ⟨⟨-, -⟩, l, hl⟩
        exact built [l] (.read hl) (by simp [NodeKind.layout]) fun _ _ _ h => h.make (by simp) rfl
      case h_3 hk => exact ifStat_sound hr hk hm hseq
      case h_4 hk => exact whileStat_sound hr hk hm hseq
      case h_5 hk => exact forStat_sound hr hk hm ih hseq
      case h_6 hk => exact blockStat_sound hr hk hm hseq
      case h_7 | h_8 | h_9 => exact assign_sound r hr
      case h_10 | h_11 | h_12 | h_13 | h_14 => exact declare_sound r hr
      case h_15 => exact .complain hr (by simp)

theorem body_sound : Sound (Grammar.IsStat true) body := by
  intro r hr
  simp only [body, wp_steps]
  exact seq_sound (stat_sound _) r hr (Nat.lt_succ_self _)

/-! ## Functions and programs -/

theorem param_sound : Sound Grammar.IsParam param := by
  intro r hr
  simp only [param, wp_steps]
  refine (type_sound r hr).weaken fun t s1 h1 => ?_
  refine h1.call ident_sound fun name s2 h2 => h2.fold ?_
  rintro _ ⟨⟨t, ht⟩, name, text, hname⟩
  refine built [t, name] ?_ (by simp [NodeKind.layout]) fun _ _ _ h => .gather h.row (by simp) rfl
  rw [List.map_cons, List.map_singleton, hname]
  exact .mk ht

theorem params_sound :
    Sound (fun t => ∃ ps, t = .node .paramList [] {} ps ∧ ∀ p ∈ ps, Grammar.IsParam p) params := by
  intro r hr
  simp only [params, symbol, wp_steps]
  refine (Upto.refl hr).expect (by decide) fun o s1 h1 => ?_
  cases o with
  | none => exact h1.noToken
  | some opening =>
    simp only [wp_steps]
    refine h1.clear.items (Sound.under param_sound _) (Nat.lt_succ_self _) fun os s2 h2 => ?_
    refine h2.expect (by decide) fun c s3 h3 => ?_
    cases c with
    | none => exact h3.noToken
    | some closing => exact h3.bracketed (fun _ => rfl) rfl fun ts hts => ⟨ts, rfl, hts⟩

theorem func_sound : Sound Grammar.IsFunc func := by
  intro r hr
  simp only [func, keyword, wp_steps, ite_prop_iff_and]
  refine (type_sound r hr).weaken fun t s1 h1 => ?_
  refine h1.call ident_sound fun name s2 h2 => ?_
  refine h2.call params_sound fun ps s3 h3 => ?_
  refine h3.expect (by decide) fun _ s4 h4 => ?_
  refine h4.call body_sound fun b s5 h5 => ?_
  refine h5.expect (by decide) fun _ s6 h6 => ?_
  refine ⟨fun hfailed => .dirty h6.onward (by simpa using hfailed), fun _ => h6.fold ?_⟩
  rintro _ ⟨⟨⟨⟨⟨⟨t, ht⟩, name, text, hname⟩, ps, qs, hps, hqs⟩, -, -⟩, b, hb⟩, -, -⟩
  refine built [t, name, ps, b] ?_ (by simp [NodeKind.layout]) fun _ _ _ h => h.make (by simp) rfl
  rw [List.map_cons, List.map_cons, List.map_cons, List.map_singleton, hname, hps]
  exact .mk ht hqs hb

def Funcs (fs : List Tree) : List Piece → Prop := Parts Grammar.IsFunc fs (fs.map Tree.unparse).flatten

theorem funcs_sound {n : Nat} {r0 r : Reader} (hr : Upto r0 r (Funcs done)) :
    Wp (funcs n done) (fun fs s => Upto r0 s (Funcs fs)) r := by
  induction n generalizing done r with
  | zero => exact hr
  | succ n ih =>
    simp only [funcs, funcsStep, wp_steps]
    split_ifs
    · refine hr.call func_sound fun o s ho => ih (ho.map ?_)
      rintro _ ⟨hdone, f, hf⟩
      have := Parts.append hdone (.single hf)
      simpa [Funcs] using this
    · exact hr

/-- **What is read of a program.**  Without a problem, the tree is in the grammar, is written with all the
    tokens and stands in the file. -/
theorem program_reads (hr : r.eof.kind = .eof) :
    Wp program (fun o s => Onward r s ∧ (r.Spelled → s.problems.length ≤ r.problems.length →
      ∃ t, o = some t ∧ Grammar.IsProgram t.bare ∧ r.terminals = t.unparse ∧ ∀ f, r.On f → t.Laid f)) r := by
  simp only [program, keyword, wp_steps]
  refine (Upto.refl hr).expect (by decide) fun o s1 h1 => ?_
  cases o with
  | none =>
    refine ⟨h1.onward, fun hs hclean => ?_⟩
    obtain ⟨-, -, -, ⟨⟩⟩ := h1.clean hs hclean
  | some start =>
    simp only [wp_steps]
    have hnil : Upto s1 s1 (Funcs []) := (Upto.refl h1.onward.ended).map fun _ h => h ▸ .nil
    refine (funcs_sound hnil).weaken fun fs s2 h2 => ?_
    refine (h1.clear.seq h2).call body_sound fun main s3 h3 => ?_
    refine h3.expect (by decide) fun stop s4 h4 => ?_
    split_ifs with hrest
    · refine ⟨h4.onward.trans (.complain h4.onward.ended (by simp)), fun _ hclean => ?_⟩
      have := h4.onward.problems
      simp only [Reader.report, List.length_cons] at hclean
      omega
    · refine ⟨h4.onward, fun hs hclean => ?_⟩
      obtain ⟨_, hps, ⟨⟨⟨_, -⟩, hfs⟩, main, hmain⟩, stop, -⟩ := h4.clean hs hclean
      have hend : s4.terminals = [] := by rw [Reader.terminals, not_not.1 hrest, List.map_nil]
      refine ⟨.make .program [] (start.span.cover stop.span) (fs ++ [main]), ?_, ?_, ?_, fun f hf => ?_⟩
      · rw [← build_map, List.map_append]
        rfl
      · rw [Tree.bare_make, List.map_append, List.map_singleton]
        exact .mk (by simpa using hfs.all) hmain
      · rw [hps.terminals, hend, Tree.unparse_make]
        simp [NodeKind.layout, hfs.terminals]
      · have hrow := hps.row f hf
        refine (Tree.Stands.make ((hrow.mark (by simp)).cover (hrow.mark (by simp))) ?_ rfl).laid
        simpa [List.filterMap_cons, hfs.trees] using hrow.row

end Rule

/-! ## Files -/

variable {f : File}

def File.terminals (f : File) : List Terminal := (Scan.tokens f.id f.content).dropLast.map Token.terminal

/-- The reader of the tokens of a file. -/
def File.reader (f : File) : Reader :=
  let stop : Span := ⟨f.id, f.content.length.toUInt32, f.content.length.toUInt32⟩
  { unread := (Scan.tokens f.id f.content).dropLast
    eof := (Scan.tokens f.id f.content).getLast?.getD ⟨.eof, stop, []⟩
    last := stop }

theorem File.reader_ended (f : File) : f.reader.eof.kind = .eof := by
  obtain ⟨ss, s, hss, heof, -⟩ := Scan.steps_eof f.id 0 f.content
  simpa [reader, Scan.tokens, hss] using heof

theorem File.reader_spelled (hlex : (Parsed.ofFile f).lexical = []) : f.reader.Spelled := by
  refine ⟨fun t ht => ?_, f.reader_ended⟩
  obtain ⟨u, hu, rfl⟩ := List.mem_map.1 (List.dropLast_subset _ ht)
  exact Scan.steps_spelled hlex u hu

theorem File.reader_on (hlen : f.content.length < 2 ^ 32) : f.reader.On f := by
  obtain ⟨ts, hts, hreads, hpair⟩ := Scan.tokens_reads hlen
  have hsize : f.content.length.toUInt32.toNat = f.content.length := UInt32.toNat_ofNat_of_lt' hlen
  unfold reader
  rw [hts, List.dropLast_concat, List.getLast?_concat]
  exact ⟨hreads, hpair, rfl, hsize, ⟨rfl, le_rfl, hsize.le⟩, by simp⟩

theorem Parsed.syntactic_eq_nil (h : (Rule.program f.reader).2.problems.length = 0) : (ofFile f).syntactic = [] :=
  List.reverse_eq_nil_iff.2 (List.eq_nil_of_length_eq_zero h)

/-- A file without problems has a tree; it is in the grammar, is written with the terminals of the file and
    stands in it. -/
theorem Parsed.exists_tree (hlex : (ofFile f).lexical = []) (hsyn : (ofFile f).syntactic = []) :
    ∃ t, (ofFile f).tree = some t ∧ Grammar.IsProgram t.bare ∧ t.unparse = f.terminals ∧
      (f.content.length < 2 ^ 32 → t.Laid f) := by
  have hclean : (Rule.program f.reader).2.problems.length ≤ f.reader.problems.length := by
    rw [← List.length_reverse]
    exact (congrArg List.length hsyn).le
  obtain ⟨t, ht, hprogram, hterms, hlaid⟩ :=
    (Rule.program_reads f.reader_ended).2 (File.reader_spelled hlex) hclean
  exact ⟨t, ht, hprogram, hterms.symm, fun hlen => hlaid f (File.reader_on hlen)⟩

theorem Parsed.tree?_eq_some {earlier : Nat} {t : Tree} (h : (ofFile f).tree? earlier = some t) :
    (ofFile f).lexical = [] ∧ (ofFile f).syntactic = [] ∧ (ofFile f).tree = some t := by
  rw [tree?] at h
  split_ifs at h with hcount
  rw [count, Nat.add_eq_zero_iff, Nat.add_eq_zero_iff, List.length_eq_zero_iff, List.length_eq_zero_iff] at hcount
  exact ⟨hcount.2.1, hcount.2.2, h⟩

end Wacc
