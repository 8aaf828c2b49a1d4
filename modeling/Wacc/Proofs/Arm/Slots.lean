/-
  Variables on the stack do not overlap.
-/
import Wacc.Proofs.Arm.Layout
import Wacc.Proofs.Compile
import Wacc.Proofs.Machine.Emit

namespace Wacc.Arm

variable {T : Table} {sc o : ScopeId} {es : List (ScopeId × Int)} {d base : Int} {h : List Held}

/-! ## The bytes of scopes -/

theorem lookup_entry {i : ScopeId} {b : Int} (hb : ((i, b) :: es).lookup o = some base) :
    o = i ∧ base = b ∨ es.lookup o = some base := by
  rw [List.lookup_cons] at hb
  split at hb
  · rename_i heq
    exact .inl ⟨by simpa using heq, (Option.some.inj hb).symm⟩
  · exact .inr hb

theorem getElem?_replicate_append {n i : Nat} {x : Held} {l : List Held} :
    (List.replicate n x ++ l)[i]? = if i < n then some x else l[i - n]? := by
  split_ifs with hi
  · rw [List.getElem?_append_left (by simpa using hi), List.getElem?_replicate, if_pos hi]
  · rw [List.getElem?_append_right (by simpa using hi), List.length_replicate]

namespace Layout

theorem owns (hw : T.Wf) (hl : Layout T es sc d h) (hb : es.lookup o = some base) :
    ∃ r a b, T.scope? o = some r ∧ h = a ++ List.replicate r.footprint.toNat (.vars o) ++ b ∧
      (a.length : Int) = d - base - r.footprint.toNat ∧
      if r.kind = .function then base = -r.footprint.toNat else 4 ≤ base := by
  induction hl with
  | @main s hs =>
    obtain ⟨g, hg, hk⟩ := hw.root
    cases hs.symm.trans hg
    obtain ⟨rfl, rfl⟩ | hnone := lookup_entry hb
    · exact ⟨s, [], List.replicate 4 .link, hs, rfl, by simp, by simp [hk]⟩
    · cases hnone
  | @func f s hs hk =>
    obtain ⟨rfl, rfl⟩ | hnone := lookup_entry hb
    · exact ⟨s, List.replicate 4 .link, [], hs, by rw [List.append_nil], by simp, by simp [hk]⟩
    · cases hnone
  | @block es sc i d h s hl hs hk hp ih =>
    obtain ⟨rfl, rfl⟩ | hb := lookup_entry hb
    · exact ⟨s, [], h, hs, rfl, by simp, by simpa [hk] using hl.frames.four_le⟩
    · obtain ⟨r, a, b, hr, rfl, hlen, hbase⟩ := ih hb
      refine ⟨r, List.replicate s.footprint.toNat (.vars i) ++ a, b, hr, by simp, ?_, hbase⟩
      rw [List.length_append, List.length_replicate]
      omega

theorem link_iff (hl : Layout T es sc d h) (i : Nat) : h[i]? = some .link ↔ d - 4 ≤ i ∧ i < d := by
  induction hl generalizing i with
  | main hs =>
    rw [getElem?_replicate_append, List.getElem?_replicate]
    split_ifs <;> simp <;> omega
  | @func f s hs hk =>
    rw [getElem?_replicate_append, List.getElem?_replicate]
    split_ifs <;> simp <;> omega
  | block hl hs hk hp ih =>
    have h4 := hl.frames.four_le
    rw [getElem?_replicate_append]
    split_ifs
    · simp
      omega
    · rw [ih]
      omega

end Layout

/-! ## Accesses -/

namespace Gen

theorem bytes_widthOf (t : Ty) : (widthOf t).bytes = t.size.toNat := by
  cases t <;> rfl

end Gen

/-! ## Questions -/

namespace Lookup

def Live (T : Table) (q : Lookup) (x : VarId) (v : Variable) : Prop :=
  T.var? x = some v ∧ ∃ base, q.stage.entry.lookup v.scope = some base

/-- The bytes of a live variable start `off` bytes above the stack pointer.  They are in use for the
    variables of its scope only.  Parameters lie above the return address, and all other variables
    below. -/
structure Place (T : Table) (q : Lookup) (x : VarId) (v : Variable) (off : Nat) : Prop where
  live : q.Live T x v
  slot : Gen.slot x T q.stage = .ok (((off : Int), v.type), [], q.stage)
  own : ∀ i, off ≤ i → i < off + v.type.size.toNat → q.held[i]? = some (.vars v.scope)
  inside : ∀ r, T.scope? v.scope = some r →
    if r.kind = .function then q.stage.depth ≤ off else (off + v.type.size.toNat : Int) ≤ q.stage.depth - 4

structure Apart (T : Table) (q : Lookup) : Prop where
  asked : ∃ v, q.Live T q.var v
  /-- the return address -/
  links : ∀ i : Nat, q.held[i]? = some .link ↔ q.stage.depth - 4 ≤ i ∧ i < q.stage.depth
  places : ∀ x v, q.Live T x v → ∃ off, q.Place T x v off
  disjoint : ∀ x y v w a b, x ≠ y → q.Place T x v a → q.Place T y w b →
    a + v.type.size.toNat ≤ b ∨ b + w.type.size.toNat ≤ a
  stores : ∀ x y v w a b, x ≠ y → q.Place T x v a → q.Place T y w b → ∀ r d, ∃ stores loads,
    Gen.storeVar r x T q.stage = .ok ((), stores, q.stage) ∧
    Gen.loadVar d y T q.stage = .ok ((), loads, q.stage) ∧
    ∀ (S : System) (k : Core), k.sp + q.held.length ≤ 2 ^ 32 →
      S.Does loads k (·.reg d = k.mem.load (Gen.widthOf w.type) (k.reg .sp + BitVec.ofNat 32 b)) ∧
      S.Does (stores ++ loads) k
        (·.reg d = k.mem.load (Gen.widthOf w.type) (k.reg .sp + BitVec.ofNat 32 b))

variable {q : Lookup} {x y : VarId} {v w : Variable} {a b : Nat}

namespace Laid

theorem asked (hq : q.Laid T) : ∃ v, q.Live T q.var v := by
  obtain ⟨-, -, -, -, ⟨r, hr⟩, -, -⟩ := hq
  rw [Gen.slot, Gen.run_bind (show Gen.table T q.stage = .ok (T, [], q.stage) from rfl)] at hr
  cases hv : T.var? q.var with
  | none => simp [hv, Gen.fail] at hr
  | some v =>
    simp only [hv] at hr
    rw [Gen.run_bind (show Gen.stage T q.stage = .ok (q.stage, [], q.stage) from rfl)] at hr
    cases hb : q.stage.entry.lookup v.scope with
    | none => simp [hb, Gen.fail] at hr
    | some base => exact ⟨v, hv, base, hb⟩

theorem links (hq : q.Laid T) (i : Nat) :
    q.held[i]? = some .link ↔ q.stage.depth - 4 ≤ i ∧ i < q.stage.depth := by
  obtain ⟨sc, s, h, hl, -, -, top, hheld, hdepth, htop⟩ := hq
  have h4 := hl.frames.four_le
  rw [hheld, hdepth]
  rcases Nat.lt_or_ge i top.length with hi | hi
  · rw [List.getElem?_append_left hi]
    constructor
    · intro hlink
      cases htop _ (List.mem_of_getElem? hlink)
    · omega
  · rw [List.getElem?_append_right hi, hl.link_iff]
    omega

theorem place (hw : T.Wf) (hq : q.Laid T) (hx : q.Live T x v) : ∃ off, q.Place T x v off := by
  obtain ⟨sc, s, h, hl, -, hentry, top, hheld, hdepth, -⟩ := hq
  obtain ⟨hv, base, hb⟩ := hx
  obtain ⟨r, a, b, hr, rfl, hlen, hbase⟩ := hl.owns hw (hentry ▸ hb)
  obtain ⟨r', hr', hsize, hoff⟩ := hw.room x v hv
  cases hr.symm.trans hr'
  have hplace : ((top.length + a.length + (r.footprint.toNat - v.offset.toNat) : Nat) : Int) =
      q.stage.depth - base - v.offset.toNat := by omega
  refine ⟨top.length + a.length + (r.footprint.toNat - v.offset.toNat), ⟨hv, base, hb⟩, ?_, ?_, ?_⟩
  · rw [hplace]
    exact Gen.slot_eq hv hb (by omega)
  · intro i hlo hhi
    rw [hheld, List.append_assoc a, ← List.append_assoc top, List.getElem?_append_right (by simp; omega),
      getElem?_replicate_append, if_pos (by simp; omega)]
  · intro r' hr'
    cases hr.symm.trans hr'
    split_ifs at hbase ⊢ <;> omega

end Laid

namespace Place

theorem size_pos (t : Ty) : 0 < t.size.toNat := by
  rw [← Gen.bytes_widthOf]
  exact Width.bytes_pos _

theorem eq (hx : q.Place T x v a) (hb : q.stage.entry.lookup v.scope = some base) :
    (a : Int) = q.stage.depth - base - v.offset.toNat := by
  have hslot := hx.slot
  rw [Gen.slot, Gen.run_bind (show Gen.table T q.stage = .ok (T, [], q.stage) from rfl)] at hslot
  simp only [hx.live.1] at hslot
  rw [Gen.run_bind (show Gen.stage T q.stage = .ok (q.stage, [], q.stage) from rfl)] at hslot
  simp only [hb] at hslot
  split_ifs at hslot
  · cases hslot
  · exact (congrArg (·.1.1) (Except.ok.inj (show Except.ok _ = Except.ok _ from hslot))).symm

theorem disjoint (hw : T.Wf) (hne : x ≠ y) (hx : q.Place T x v a) (hy : q.Place T y w b) :
    a + v.type.size.toNat ≤ b ∨ b + w.type.size.toNat ≤ a := by
  by_cases hs : v.scope = w.scope
  · obtain ⟨hv, base, hb⟩ := hx.live
    obtain ⟨hw', base', hb'⟩ := hy.live
    obtain rfl : base = base' := by
      rw [hs, hb'] at hb
      exact (Option.some.inj hb).symm
    have ha := hx.eq hb
    have hb := hy.eq hb'
    obtain hvw | hwv := hw.apart x y v w hv hw' hne hs
    · omega
    · omega
  · by_contra hover
    have hpos := size_pos v.type
    have hpos' := size_pos w.type
    have h1 := hx.own (max a b) (le_max_left a b) (by omega)
    have h2 := hy.own (max a b) (le_max_right a b) (by omega)
    rw [h1, Option.some.injEq, Held.vars.injEq] at h2
    exact hs h2

theorem le_length (hx : q.Place T x v a) : a + v.type.size.toNat ≤ q.held.length := by
  have hpos := size_pos v.type
  have hlast := hx.own (a + v.type.size.toNat - 1) (by omega) (by omega)
  obtain ⟨hlt, -⟩ := List.getElem?_eq_some_iff.1 hlast
  omega

theorem stores (hne : a + v.type.size.toNat ≤ b ∨ b + w.type.size.toNat ≤ a) (hx : q.Place T x v a)
    (hy : q.Place T y w b) (r d : Reg) : ∃ stores loads,
    Gen.storeVar r x T q.stage = .ok ((), stores, q.stage) ∧
    Gen.loadVar d y T q.stage = .ok ((), loads, q.stage) ∧
    ∀ (S : System) (k : Core), k.sp + q.held.length ≤ 2 ^ 32 →
      S.Does loads k (·.reg d = k.mem.load (Gen.widthOf w.type) (k.reg .sp + BitVec.ofNat 32 b)) ∧
      S.Does (stores ++ loads) k
        (·.reg d = k.mem.load (Gen.widthOf w.type) (k.reg .sp + BitVec.ofNat 32 b)) := by
  obtain ⟨stores, hstores, hdoes⟩ := Gen.store_lines (T := T) (s := q.stage) (b := .sp) r (by decide) a v.type
  obtain ⟨loads, hloads, hload⟩ := Gen.load_lines (T := T) (s := q.stage) (b := .sp) d (by decide) b w.type
  refine ⟨stores, loads, ?_, ?_, fun S k hk => ⟨(hload S k 0).weaken fun _ h => h.1, ?_⟩⟩
  · rw [Gen.storeVar, Gen.run_bind hx.slot]
    exact hstores
  · rw [Gen.loadVar, Gen.run_bind hy.slot]
    exact hloads
  · refine (hdoes S k).seq ?_
    rintro k' ⟨⟨value, hmem, -⟩, hregs⟩
    refine (hload S k' 0).weaken fun k'' hk'' => hk''.1.trans ?_
    have hxl := hx.le_length
    have hyl := hy.le_length
    have hto : ∀ n : Nat, n + 1 ≤ q.held.length → (k.reg .sp + BitVec.ofInt 32 n).toNat = k.sp + n := by
      intro n hn
      rw [BitVec.ofInt_natCast, BitVec.toNat_add, BitVec.toNat_ofNat, Core.sp] at *
      omega
    have hpos := size_pos v.type
    have hpos' := size_pos w.type
    rw [hregs .sp (by decide), hmem, Mem.load_store_other]
    · rfl
    all_goals rw [Gen.bytes_widthOf, hto _ (by omega)]
    · omega
    · omega
    · rw [Gen.bytes_widthOf, hto _ (by omega)]
      omega

end Place

theorem Laid.apart (hw : T.Wf) (hq : q.Laid T) : q.Apart T where
  asked := hq.asked
  links := hq.links
  places _ _ hx := hq.place hw hx
  disjoint _ _ _ _ _ _ hne hx hy := hx.disjoint hw hne hy
  stores _ _ _ _ _ _ hne hx hy := Place.stores (hx.disjoint hw hne hy) hx hy

end Lookup

/-! ## Programs -/

/-- **Stack slots never overlap.**  While the code of a program is generated, whenever the place of a
    variable is asked for, all live variables have places; these are disjoint from each other, from the
    return address and from all that is pushed for a while; and a store to one variable does not change
    what is loaded for another. -/
theorem slots_apart (f : File) (p : Program) (hlen : f.content.length < 2 ^ 32) (hp : f.program? = some p) :
    ∃ held asked out s, Noted.program p [] p.table {} = .ok (((), held, asked), out, s) ∧
      Gen.program p p.table {} = .ok ((), out, s) ∧ ∀ q ∈ asked, q.Apart p.table := by
  obtain ⟨⟨n, hn, hbounded⟩, -⟩ := File.bounded_of_program hlen hp
  have hwf : p.table.Wf := hbounded.typed.wf
  obtain ⟨_, out, s, hrun, -⟩ := Gen.program_closed hbounded hn
  obtain ⟨held, asked, hnoted, hlaid⟩ := Noted.program_lookups hwf hbounded.typed.body hbounded.typed.funcs _ _ _ hrun
  exact ⟨held, asked, out, s, hnoted, hrun, fun q hq => (hlaid q hq).apart hwf⟩

/-- Parameters, a block and the header of a loop inside each other, and values put aside. -/
def crowded : File where
  id := 0
  path := lit "crowded.wacc"
  flags := 0
  content := lit "begin
    int mix(int a, char b, bool c) is
      int d = a + 1 ;
      begin
        char e = b ;
        for (int i = 0 ; i < d ; i = i + 1) do
          a = i + (d + (a + (i + (d + (a + (i + (d + a)))))))
        done ;
        println e
      end ;
      return a
    end
    bool c = true ;
    int x = call mix(1, 'b', c) ;
    x = call mix(x, 'c', c)
  end"

theorem slots_apart_crowded : ∃ p held asked out s, crowded.program? = some p ∧
    Noted.program p [] p.table {} = .ok (((), held, asked), out, s) ∧ asked.length = 27 ∧
    ∀ q ∈ asked, q.Apart p.table := by
  have hasked : (crowded.program?.bind fun p => (Noted.program p [] p.table {}).toOption.map
      (·.1.2.2.length)) = some 27 := by decide +kernel
  obtain ⟨p, hp, hasked⟩ := Option.bind_eq_some_iff.1 hasked
  obtain ⟨held, asked, out, s, hrun, -, hapart⟩ := slots_apart crowded p (by decide +kernel) hp
  rw [hrun] at hasked
  exact ⟨p, held, asked, out, s, hp, hrun, Option.some.inj hasked, hapart⟩

end Wacc.Arm
