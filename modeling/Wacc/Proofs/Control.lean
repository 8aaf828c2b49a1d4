/-
  Control in statements, with every choice left open.

  What is still to be done is a stack of tasks.  A step takes the first task: either branch of an `if`
  may be taken, and the body of a loop may run once more or not.  A return or an exit has no step, so
  the path ends there.
-/
import Wacc.Proofs.Arm.Stat

namespace Wacc.Control

/-- Something to be done. -/
inductive Task where
  | run (s : Stat)
  | leave (scope : ScopeId)
  | loop (cond : Expr) (body : Block) (after : List Stat)

/-- What is done in a step. -/
inductive Act where
  | did (s : Stat)
  | tested (cond : Expr)
  | entered (scope : ScopeId)
  | left (scope : ScopeId)

def isSimple : Stat → Bool
  | .skip _ | .declare _ _ _ _ _ | .assign _ _ _ | .read _ _ | .free _ _ | .print _ _ _ => true
  | _ => false

inductive Step : List Task → Option Act → List Task → Prop
  | simple {s k} : isSimple s = true → Step (.run s :: k) (some (.did s)) k
  | seq {site ss k} :
    Step (.run (.seq site ss) :: k) none (ss.map .run ++ k)
  | block {site i s k} :
    Step (.run (.block (.mk site i s)) :: k) (some (.entered i)) (.run s :: .leave i :: k)
  | leave {i k} : Step (.leave i :: k) (some (.left i)) k
  | thenOnly {site c a k} :
    Step (.run (.ifThen site c a) :: k) (some (.tested c)) (.run (.block a) :: k)
  | thenSkip {site c a k} :
    Step (.run (.ifThen site c a) :: k) (some (.tested c)) k
  | thenPart {site c a b k} :
    Step (.run (.ifElse site c a b) :: k) (some (.tested c)) (.run (.block a) :: k)
  | elsePart {site c a b k} :
    Step (.run (.ifElse site c a b) :: k) (some (.tested c)) (.run (.block b) :: k)
  | while {site c b k} :
    Step (.run (.while site c b) :: k) none (.loop c b [] :: k)
  | for {site h init step c b k} :
    Step (.run (.for site h init c step b) :: k) (some (.entered h))
      (.run init :: .loop c b [step] :: .leave h :: k)
  | again {c b after k} :
    Step (.loop c b after :: k) (some (.tested c))
      (.run (.block b) :: (after.map .run ++ .loop c b after :: k))
  | stop {c b after k} :
    Step (.loop c b after :: k) (some (.tested c)) k

/-- Steps in a row, with all that is done in them. -/
inductive Path : List Task → List Act → List Task → Prop
  | nil {k} : Path k [] k
  | cons {k k' k'' a as} :
    Step k a k' → Path k' as k'' → Path k (a.toList ++ as) k''

def Reaches (k k' : List Task) : Prop := ∃ as, Path k as k'

namespace Reaches

variable {k k' k'' : List Task} {a : Option Act}

theorem refl (k : List Task) : Reaches k k := ⟨[], .nil⟩

theorem step (h : Step k a k') (h' : Reaches k' k'') : Reaches k k'' := by
  obtain ⟨as, has⟩ := h'
  exact ⟨_, .cons h has⟩

theorem trans (h : Reaches k k') (h' : Reaches k' k'') : Reaches k k'' := by
  obtain ⟨as, has⟩ := h
  induction has with
  | nil => exact h'
  | cons hs _ ih => exact (ih h').step hs

end Reaches

/-! ## Getting to the end -/

mutual

theorem reaches_of_falls (s : Stat) (k : List Task) (h : s.falls = true) : Reaches (.run s :: k) k := by
  cases s with
  | block b => exact reaches_of_block b k (by simpa [Stat.falls] using h)
  | ifThen site c a => exact (Reaches.refl k).step .thenSkip
  | ifElse site c a b =>
    rcases Bool.or_eq_true_iff.1 (by simpa only [Stat.falls] using h) with h | h
    · exact (reaches_of_block a k h).step .thenPart
    · exact (reaches_of_block b k h).step .elsePart
  | «while» site c b => exact ((Reaches.refl k).step .stop).step .while
  | «for» site sc i c st b =>
    have hi := reaches_of_falls i (.loop c b [st] :: .leave sc :: k) (by simpa [Stat.falls] using h)
    exact (hi.trans (((Reaches.refl k).step .leave).step .stop)).step .for
  | seq site ss => exact (reaches_of_fallsAll ss k (by simpa [Stat.falls] using h)).step .seq
  | ret site e => simp [Stat.falls] at h
  | exit site e => simp [Stat.falls] at h
  | _ => exact (Reaches.refl k).step (.simple rfl)

theorem reaches_of_block (b : Block) (k : List Task) (h : b.falls = true) :
    Reaches (.run (.block b) :: k) k := by
  cases b with
  | mk site i s =>
    have hs := reaches_of_falls s (.leave i :: k) (by simpa [Block.falls] using h)
    exact (hs.trans ((Reaches.refl k).step .leave)).step .block

theorem reaches_of_fallsAll (ss : List Stat) (k : List Task) (h : Stat.fallsAll ss = true) :
    Reaches (ss.map .run ++ k) k := by
  cases ss with
  | nil => exact .refl k
  | cons s ss =>
    obtain ⟨hs, hss⟩ := Bool.and_eq_true_iff.1 (by simpa only [Stat.fallsAll] using h)
    exact (reaches_of_falls s (ss.map .run ++ k) hs).trans (reaches_of_fallsAll ss k hss)

end

def Task.falls : Task → Bool
  | .run s => s.falls
  | _ => true

theorem falls_run (ss : List Stat) : (ss.map Task.run).all Task.falls = Stat.fallsAll ss := by
  induction ss with
  | nil => rfl
  | cons s ss ih => rw [List.map_cons, List.all_cons, ih, Stat.fallsAll, Task.falls]

theorem Step.falls {k k' : List Task} {a : Option Act} (h : Step k a k') (hk : k'.all Task.falls = true) :
    k.all Task.falls = true := by
  cases h with
  | @simple s _ hs =>
    have hfalls : s.falls = true := by cases s <;> first | rfl | simp [isSimple] at hs
    simp only [List.all_cons, Task.falls, hfalls, hk, Bool.and_self]
  | seq =>
    simp only [List.all_append, falls_run] at hk
    simpa [Task.falls, Stat.falls] using hk
  | block => simpa [Task.falls, Stat.falls, Block.falls] using hk
  | leave => simpa [Task.falls] using hk
  | thenOnly | thenSkip | thenPart | elsePart | «while» | «for» => simp_all [Task.falls, Stat.falls]
  | again | stop => simp_all [Task.falls]

theorem Path.falls {k k' : List Task} {as : List Act} (h : Path k as k') (hk : k'.all Task.falls = true) :
    k.all Task.falls = true := by
  induction h with
  | nil => exact hk
  | cons hs _ ih => exact hs.falls (ih hk)

theorem reaches_end_iff (b : Block) : Reaches [.run (.block b)] [] ↔ b.falls = true := by
  constructor
  · rintro ⟨as, h⟩
    simpa [Task.falls, Stat.falls] using h.falls rfl
  · exact reaches_of_block b []

end Wacc.Control
