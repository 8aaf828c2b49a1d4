/-
  The files of a cache.

  The place that a path leads to is a matter of its names: what is on the disk decides only whether one gets
  there.  Reading an entry finds a file at the place of its key; writing one changes no other file, and
  removing all leaves only files that were there.
-/
import Mathlib.Tactic.SplitIfs
import Wacc.Cache.Basic

namespace Wacc

namespace Disk

variable {d d' : Disk} {p q : Place} {e : Entry}

/-! ## Places -/

def walk (p : Place) : List Text → Place
  | [] => p
  | n :: ns =>
    if n.isEmpty || n == lit "." then walk p ns
    else if n == lit ".." then walk p.dropLast ns
    else walk (p ++ [n]) ns

def target (work : Place) (path : Text) : Place :=
  walk (if Path.isAbs path then [] else work) (path.splitOn Path.slash)

theorem follow_eq {ns : List Text} (h : d.follow p ns = .ok q) : q = walk p ns := by
  induction ns generalizing p with
  | nil => exact (Except.ok.inj h).symm
  | cons n ns ih =>
    rw [follow] at h
    cases hdir : d.needDir p with
    | error c => rw [hdir] at h; cases h
    | ok =>
      rw [hdir] at h
      change (if _ then _ else _) = _ at h
      rw [walk]
      split_ifs at h ⊢
      · exact ih h
      · exact ih h
      · exact ih h

theorem place_eq {path : Text} (h : d.place path = .ok q) : q = target d.work path := by
  unfold place at h
  rw [target]
  split_ifs at h ⊢
  · exact follow_eq h
  · exact follow_eq h

/-! ## Files -/

theorem lookup_map_update (es : List (Place × Entry)) (p q : Place) (e : Entry) :
    (es.map fun (r, x) => (r, if r = p then e else x)).lookup q =
      (es.lookup q).map fun x => if q = p then e else x := by
  induction es with
  | nil => rfl
  | cons a es ih =>
    obtain ⟨r, x⟩ := a
    rw [List.map_cons, List.lookup_cons, List.lookup_cons, ih]
    by_cases h : q = r
    · subst h
      simp
    · rw [beq_eq_false_iff_ne.2 h]

theorem lookup_filter_key (es : List (Place × Entry)) (keep : Place → Bool) (q : Place) :
    (es.filter fun (r, _) => keep r).lookup q = if keep q then es.lookup q else none := by
  induction es with
  | nil => split_ifs <;> rfl
  | cons a es ih =>
    obtain ⟨r, x⟩ := a
    by_cases h : q = r
    · subst h
      by_cases hk : keep q = true
      · simp [hk]
      · simp only [List.filter_cons, hk, Bool.false_eq_true, if_false] at ih ⊢
        exact ih
    · have hne : (q == r) = false := beq_eq_false_iff_ne.2 h
      rw [List.filter_cons]
      by_cases hk : keep r = true
      · simp only [hk, if_true, List.lookup_cons, hne, ih]
      · simp only [hk, Bool.false_eq_true, if_false, List.lookup_cons, hne, ih]

theorem lookup_put (d : Disk) (p q : Place) (e : Entry) :
    (d.put p e).entries.lookup q = if q = p then some e else d.entries.lookup q := by
  unfold put
  split_ifs with hany hq hq
  · subst hq
    rw [lookup_map_update]
    obtain ⟨⟨r, x⟩, hmem, hr⟩ := List.any_eq_true.1 hany
    obtain rfl : r = q := beq_iff_eq.1 hr
    cases hx : d.entries.lookup r with
    | none => simpa using List.lookup_eq_none_iff.1 hx _ hmem
    | some y => simp
  · rw [lookup_map_update]
    simp [hq]
  · subst hq
    have hnone : d.entries.lookup q = none := by
      rw [List.lookup_eq_none_iff]
      intro a ha
      rw [bne_iff_ne]
      rintro rfl
      exact hany (List.any_eq_true.2 ⟨a, ha, beq_self_eq_true _⟩)
    simp [List.lookup_append, hnone]
  · have hne : (q == p) = false := beq_eq_false_iff_ne.2 hq
    simp [List.lookup_append, List.lookup_cons, hne]

theorem put_work (d : Disk) (p : Place) (e : Entry) : (d.put p e).work = d.work := by
  unfold put
  split_ifs <;> rfl

theorem file_of_put {t : Text} (h : Disk.entry? (d.put p e) q = some (.file t)) :
    (q = p ∧ e = .file t) ∨ d.entry? q = some (.file t) := by
  unfold entry? at h ⊢
  split_ifs at h with hroot
  · cases h
  rw [if_neg hroot]
  rw [lookup_put] at h
  split_ifs at h with hq
  · exact .inl ⟨hq, Option.some.inj h⟩
  · exact .inr h

structure Within (d' d : Disk) : Prop where
  work : d'.work = d.work
  files : ∀ p t, Disk.entry? d' p = some (.file t) → d.entry? p = some (.file t)

namespace Within

theorem refl (d : Disk) : d.Within d := ⟨rfl, fun _ _ h => h⟩

theorem trans {d'' : Disk} (h : d''.Within d') (h' : d'.Within d) : d''.Within d :=
  ⟨h.work.trans h'.work, fun p t ht => h'.files p t (h.files p t ht)⟩

variable {path : Text}

theorem makeDir (h : d.makeDir path = .ok d') : d'.Within d := by
  unfold Disk.makeDir at h
  dsimp only at h
  split_ifs at h
  split at h
  · cases h
  · split at h
    · cases h
    · cases h
      refine ⟨put_work .., fun p t ht => ?_⟩
      obtain ⟨-, ⟨⟩⟩ | ht := file_of_put ht
      exact ht

theorem makeDirsWithin {fuel : Nat} (h : Disk.makeDirsWithin fuel d path = .ok d') : d'.Within d := by
  induction fuel generalizing d d' path with
  | zero => cases h
  | succ fuel ih =>
    rw [Disk.makeDirsWithin] at h
    split at h
    · cases h
      exact refl d
    · cases h
    · -- the directories around it come first
      obtain ⟨d1, hd1, hlast⟩ : ∃ d1 : Disk, d1.Within d ∧ (d1.makeDir path = .ok d' ∨ d1 = d') := by
        simp only [bind, Except.bind, pure, Except.pure] at h
        by_cases htop : (parent path).isEmpty = true
        · rw [if_pos htop] at h
          refine ⟨d, refl d, ?_⟩
          split at h
          · exact .inl (by rwa [← h])
          · split_ifs at h
            exact .inr (Except.ok.inj h)
        · rw [if_neg htop] at h
          split at h
          · cases h
          · rename_i d1 hp
            refine ⟨d1, ih hp, ?_⟩
            split at h
            · exact .inl (by rwa [← h])
            · split_ifs at h
              exact .inr (Except.ok.inj h)
      rcases hlast with h | rfl
      · exact trans (makeDir h) hd1
      · exact hd1

theorem makeDirs (h : d.makeDirs path = .ok d') : d'.Within d := makeDirsWithin h

theorem remove (h : d.remove path = .ok d') : d'.Within d := by
  unfold Disk.remove at h
  split at h
  · cases h
  · split at h
    · cases h
    · rename_i place _ _ _ _
      cases h
      refine ⟨rfl, fun q t ht => ?_⟩
      unfold entry? at ht ⊢
      split_ifs at ht with hroot
      · cases ht
      · rw [lookup_filter_key _ (fun r => !place.isPrefixOf r)] at ht
        split_ifs at ht
        rw [if_neg hroot]
        exact ht

end Within

theorem file_of_write {path content : Text} (h : d.write path content = .ok d') :
    d'.work = d.work ∧ ∀ q t, Disk.entry? d' q = some (.file t) →
      (q = target d.work path ∧ t = content) ∨ d.entry? q = some (.file t) := by
  unfold write at h
  dsimp only at h
  split at h
  · split at h <;> cases h
  · rename_i p hp
    split at h
    · cases h
    · cases h
      refine ⟨put_work .., fun q t ht => ?_⟩
      obtain ⟨hq, he⟩ | ht := file_of_put ht
      · exact .inl ⟨hq.trans (place_eq hp), (Entry.file.inj he).symm⟩
      · exact .inr ht

end Disk

/-! ## Entries -/

namespace Cache

variable {c : Cache} {P : Cached → Prop} {d d' : Disk} {key : UInt64} {e : Cached}

/-- The entries of a cache that are of this form, each in the file of its key, satisfy `P`.  Nothing is said
    about files that cannot be read, are of another form or hold another key. -/
def Holds (c : Cache) (P : Cached → Prop) (d : Disk) : Prop :=
  ∀ key t e, d.entry? (Disk.target d.work (c.path key)) = some (.file t) → Pack.decode? t = some e →
    e.schema = schema → e.key = key → P e

namespace Holds

theorem get (h : c.Holds P d) (hget : c.get d key = .ok (some e)) : P e ∧ e.key = key := by
  unfold Cache.get Disk.find at hget
  cases hplace : d.place (c.path key) with
  | error cause =>
    simp only [hplace] at hget
    split_ifs at hget
    cases Except.ok.inj hget
  | ok p =>
    simp only [hplace] at hget
    cases hentry : d.entry? p with
    | none => simp [hentry] at hget
    | some x =>
      simp only [hentry] at hget
      cases x with
      | dir => cases hget
      | file t =>
        cases hdecode : Pack.decode? t with
        | none => simp [hdecode] at hget
        | some e' =>
          simp only [hdecode, Except.ok.injEq, Option.ite_none_right_eq_some, Option.some.injEq,
            Bool.and_eq_true, decide_eq_true_eq] at hget
          obtain ⟨⟨hschema, hkey⟩, rfl⟩ := hget
          rw [Disk.place_eq hplace] at hentry
          exact ⟨h key t e' hentry hdecode hschema hkey, hkey⟩

theorem within (h : c.Holds P d) (hd : d'.Within d) : c.Holds P d' := by
  intro key t e ht
  rw [hd.work] at ht
  exact h key t e (hd.files _ _ ht)

theorem put (h : c.Holds P d) (hpack : Pack.decode? (Pack.encode e) = some e) (he : P e)
    (hput : c.put d key e = .ok d') : c.Holds P d' := by
  unfold Cache.put at hput
  cases hdirs : d.makeDirs (Path.dir (c.path key)) with
  | error => simp [hdirs] at hput
  | ok d1 =>
    have h1 : c.Holds P d1 := h.within (.makeDirs hdirs)
    simp only [hdirs] at hput
    cases hwrite : d1.write (c.path key) (Pack.encode e) with
    | error => simp [hwrite] at hput
    | ok d2 =>
      obtain rfl : d2 = d' := by simpa [hwrite] using hput
      obtain ⟨hwork, hfiles⟩ := Disk.file_of_write hwrite
      intro key' t e' ht hdecode hschema hkey
      rw [hwork] at ht
      obtain ⟨-, rfl⟩ | ht := hfiles _ _ ht
      · -- whatever key leads to the file, it holds the entry that was written
        cases hpack.symm.trans hdecode
        exact he
      · exact h1 key' t e' ht hdecode hschema hkey

theorem drop (h : c.Holds P d) (hdrop : c.drop d = .ok d') : c.Holds P d' := by
  unfold Cache.drop at hdrop
  cases hremove : d.remove c.folder with
  | ok d1 =>
    obtain rfl : d1 = d' := by simpa [hremove] using hdrop
    exact h.within (.remove hremove)
  | error e =>
    simp only [hremove] at hdrop
    split_ifs at hdrop
    cases hdrop
    exact h

end Holds

end Cache

end Wacc
