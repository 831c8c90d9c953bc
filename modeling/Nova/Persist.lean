import Mathlib.Data.Nat.Defs
import Nova.Pmem

/-! What a crash leaves on the medium. A cache line reaches it when it is flushed, or written
around the cache, and a fence follows; or at an eviction at any moment in between. -/
namespace Nova

/-- A unit of persistence: a 64-byte line of the byte space, a log slot, a log tail. -/
inductive Line where
  | data (n : Nat)
  | slot (s : Nat)
  | tail (ino : Nat)
  deriving DecidableEq

/-- The lines an operation changes. -/
def Op.Touches : Op → Line → Prop
  | .store a n _, .data l => a < l * 64 + 64 ∧ l * 64 < a + n
  | .storeNt a n _, .data l => a < l * 64 + 64 ∧ l * 64 < a + n
  | .putEntry s _, .slot s' => s = s'
  | .putTail i _, .tail i' => i = i'
  | _, _ => False

/-- The lines an operation sends towards the medium, to arrive at the next fence. -/
def Op.Schedules : Op → Line → Prop
  | .storeNt a n _, .data l => a < l * 64 + 64 ∧ l * 64 < a + n
  | .flush a n, .data l => a < l * 64 + 64 ∧ l * 64 < a + n
  | .putEntry s _, .slot s' => s = s'
  | .flushTail i, .tail i' => i = i'
  | _, _ => False

instance (o : Op) (L : Line) : Decidable (o.Schedules L) := by
  cases o <;> cases L <;> dsimp only [Op.Schedules] <;> infer_instance

theorem Op.touches_of_writes {o : Op} {a : Nat} (h : o.Writes a) : o.Touches (.data (a / 64)) := by
  cases o <;> simp only [Op.Writes, Op.Touches] at h ⊢ <;> omega

namespace Pmem

def Agree (L : Line) (m m' : Pmem) : Prop :=
  match L with
  | .data l => ∀ a, a / 64 = l → m.bytes a = m'.bytes a
  | .slot s => m.slots s = m'.slots s
  | .tail i => m.tails i = m'.tails i

theorem Agree.refl (L : Line) (m : Pmem) : Agree L m m := by
  cases L <;> simp [Agree]

theorem Agree.symm {L : Line} {m m' : Pmem} (h : Agree L m m') : Agree L m' m := by
  cases L <;> simp only [Agree] at * <;> first | exact h.symm | exact fun a ha => (h a ha).symm

theorem Agree.trans {L : Line} {m₁ m₂ m₃ : Pmem} (h₁ : Agree L m₁ m₂) (h₂ : Agree L m₂ m₃) :
    Agree L m₁ m₃ := by
  cases L <;> simp only [Agree] at * <;> first | exact h₁.trans h₂ | exact fun a ha => (h₁ a ha).trans (h₂ a ha)

theorem step_agree {o : Op} {L : Line} (m : Pmem) (h : ¬ o.Touches L) : Agree L (m.step o) m := by
  cases o <;> cases L <;> simp only [step, Agree, Op.Touches, write_bytes, write_slots,
    write_tails] at h ⊢
  all_goals first
    | rfl
    | exact fun _ _ => trivial
    | exact Function.update_noteq (Ne.symm h) _ _
    | intro a ha; rw [if_neg]; omega

theorem run_agree {ops : List Op} {L : Line} (m : Pmem) (h : ∀ o ∈ ops, ¬ o.Touches L) :
    Agree L (m.run ops) m := by
  induction ops generalizing m with
  | nil => exact Agree.refl L m
  | cons o os ih =>
    exact (ih (m.step o) fun o' h' => h o' (List.mem_cons_of_mem _ h')).trans
      (step_agree m (h o (List.mem_cons_self _ _)))

/-- The medium after a crash: line `L` holds what it held after the first `k L` operations. -/
def image (m : Pmem) (t : List Op) (k : Line → Nat) : Pmem where
  bytes a := (m.run (t.take (k (.data (a / 64))))).bytes a
  slots s := (m.run (t.take (k (.slot s)))).slots s
  tails i := (m.run (t.take (k (.tail i)))).tails i

theorem image_agree (m : Pmem) (t : List Op) (k : Line → Nat) (L : Line) :
    Agree L (m.image t k) (m.run (t.take (k L))) := by
  cases L <;> simp only [Agree, image]
  intro a ha; rw [ha]

theorem run_take_agree {t : List Op} {L : Line} (m : Pmem) {a b : Nat} (hab : a ≤ b)
    (h : ∀ j o, a ≤ j → j < b → t[j]? = some o → ¬ o.Touches L) :
    Agree L (m.run (t.take a)) (m.run (t.take b)) := by
  have split : t.take b = t.take a ++ (t.drop a).take (b - a) := by
    rw [← List.take_add, Nat.add_sub_cancel' hab]
  rw [split, run_append]
  refine (run_agree _ fun o ho => ?_).symm
  obtain ⟨j, hj, hjo⟩ := List.getElem_of_mem ho
  rw [List.getElem_take, List.getElem_drop] at hjo
  simp only [List.length_take, List.length_drop, Nat.lt_min] at hj
  exact h (a + j) o (by omega) (by omega) (by simp [← hjo, List.getElem?_eq_getElem (by omega : a + j < t.length)])

end Pmem

/-- Every line an operation changes is sent towards the medium by it or by a later operation
of the list. -/
def FlushedBy : List Op → Prop
  | [] => True
  | o :: os => (∀ L, o.Touches L → o.Schedules L ∨ ∃ o' ∈ os, o'.Schedules L) ∧ FlushedBy os

theorem FlushedBy.append {xs ys : List Op} (hx : FlushedBy xs) (hy : FlushedBy ys) :
    FlushedBy (xs ++ ys) := by
  induction xs with
  | nil => exact hy
  | cons o os ih =>
    refine ⟨fun L hL => ?_, ih hx.2⟩
    rcases hx.1 L hL with h | ⟨o', h', hs⟩
    · exact .inl h
    · exact .inr ⟨o', List.mem_append_left _ h', hs⟩

theorem flushedBy_store_flush (a n : Nat) (src : Nat → UInt8) : FlushedBy [.store a n src, .flush a n] :=
  ⟨fun L hL => .inr ⟨_, List.mem_singleton_self _, by
    cases L <;> simp only [Op.Touches, Op.Schedules] at hL ⊢
    exact hL⟩,
    fun L hL => by cases L <;> simp only [Op.Touches] at hL, trivial⟩

theorem FlushedBy.scheduled {P : List Op} (hP : FlushedBy P) {j : Nat} {o : Op} {L : Line}
    (hj : P[j]? = some o) (hL : o.Touches L) : ∃ f o', j ≤ f ∧ P[f]? = some o' ∧ o'.Schedules L := by
  induction P generalizing j with
  | nil => simp at hj
  | cons p ps ih =>
    cases j with
    | zero =>
      simp only [List.getElem?_cons_zero, Option.some.injEq] at hj
      subst hj
      rcases hP.1 L hL with h | ⟨o', h', hs⟩
      · exact ⟨0, p, Nat.le_refl 0, List.getElem?_cons_zero, h⟩
      · obtain ⟨f, hf, hfo⟩ := List.getElem_of_mem h'
        exact ⟨f + 1, o', by omega, by simp [← hfo, List.getElem?_eq_getElem hf], hs⟩
    | succ j =>
      obtain ⟨f, o', hf, hfo, hs⟩ := ih hP.2 (by simpa using hj)
      exact ⟨f + 1, o', by omega, by simpa using hfo, hs⟩

/-- `t[i]` sends line `L` towards the medium and a fence follows it before the crash point `n`. -/
def Durable (t : List Op) (n : Nat) (L : Line) (i : Nat) : Prop :=
  ∃ o, t[i]? = some o ∧ o.Schedules L ∧ ∃ j, i < j ∧ j < n ∧ t[j]? = some .fence

/-- A medium a crash can leave once some prefix of `t` ran from `m`: each line holds its
content after some shorter prefix, no older than what a fence made durable. -/
def Crash (m : Pmem) (t : List Op) (g : Pmem) : Prop :=
  ∃ n ≤ t.length, ∃ k : Line → Nat, (∀ L, k L ≤ n) ∧ (∀ L i, Durable t n L i → i < k L) ∧
    g = m.image t k

theorem image_agree_fenced {m : Pmem} {P Q : List Op} {n : Nat} {k : Line → Nat} {L : Line}
    (hP : FlushedBy P) (hn : P.length < n) (hd : ∀ i, Durable (P ++ .fence :: Q) n L i → i < k L) :
    Pmem.Agree L (m.image (P ++ .fence :: Q) k) (m.run ((P ++ .fence :: Q).take (max (k L) P.length))) := by
  have fence : (P ++ .fence :: Q)[P.length]? = some .fence := by
    rw [List.getElem?_append_right (Nat.le_refl _), Nat.sub_self, List.getElem?_cons_zero]
  refine (m.image_agree _ k L).trans (Pmem.run_take_agree m (Nat.le_max_left _ _) fun j o hj hjt ho hL => ?_)
  have hlt : j < P.length := by omega
  rw [List.getElem?_append_left hlt] at ho
  obtain ⟨f, o', hjf, hfo, hs⟩ := hP.scheduled ho hL
  have hf : f < P.length := (List.getElem?_eq_some_iff.mp hfo).1
  have := hd f ⟨o', by rwa [List.getElem?_append_left hf], hs, P.length, hf, hn, fence⟩
  omega

/-- Once a fence has followed a prefix that flushed everything it wrote, every line the rest of
the run leaves alone is on the medium as the run leaves it. -/
theorem image_agree_run {m : Pmem} {P Q : List Op} {n : Nat} {k : Line → Nat} {L : Line}
    (hP : FlushedBy P) (hn : P.length < n) (hk : k L ≤ n) (hnt : n ≤ (P ++ .fence :: Q).length)
    (hd : ∀ i, Durable (P ++ .fence :: Q) n L i → i < k L) (hQ : ∀ o ∈ Q, ¬ o.Touches L) :
    Pmem.Agree L (m.image (P ++ .fence :: Q) k) (m.run (P ++ .fence :: Q)) := by
  have h := Pmem.run_take_agree (t := P ++ .fence :: Q) (L := L) m (a := max (k L) P.length)
    (b := (P ++ .fence :: Q).length)
    (Nat.max_le.mpr ⟨by omega, by simp⟩) fun j o hj _ ho hL => ?_
  · rw [List.take_length] at h
    exact (image_agree_fenced hP hn hd).trans h
  rw [List.getElem?_append_right (Nat.le_trans (Nat.le_max_right _ _) hj)] at ho
  rcases h' : j - P.length with _ | i
  · rw [h', List.getElem?_cons_zero] at ho; cases ho; exact hL
  · rw [h', List.getElem?_cons_succ] at ho; exact hQ o (List.getElem?_mem ho) hL

theorem crash_full (m : Pmem) (t : List Op) : Crash m t (m.image t fun _ => t.length) :=
  ⟨t.length, Nat.le_refl _, _, fun _ => Nat.le_refl _, fun _ _ ⟨_, _, _, _, hij, hj, _⟩ => by omega, rfl⟩

/-- Every store of the list to byte `x` is followed, by itself or by a later operation, by one
sending `x`'s line towards the medium. -/
def FlushesByte (x : Nat) : List Op → Prop
  | [] => True
  | o :: os => (o.Writes x → o.Schedules (.data (x / 64)) ∨ ∃ o' ∈ os, o'.Schedules (.data (x / 64))) ∧
      FlushesByte x os

section FlushesByte
variable {x : Nat}

theorem FlushesByte.append {xs ys : List Op} (hx : FlushesByte x xs) (hy : FlushesByte x ys) :
    FlushesByte x (xs ++ ys) := by
  induction xs with
  | nil => exact hy
  | cons o os ih =>
    refine ⟨fun hw => ?_, ih hx.2⟩
    rcases hx.1 hw with h | ⟨o', h', hs⟩
    · exact .inl h
    · exact .inr ⟨o', List.mem_append_left _ h', hs⟩

theorem FlushesByte.of_not_writes {P : List Op} (h : ∀ o ∈ P, ¬ o.Writes x) : FlushesByte x P := by
  induction P with
  | nil => trivial
  | cons o os ih =>
    exact ⟨fun hw => absurd hw (h o (List.mem_cons_self _ _)), ih fun o' h' => h o' (List.mem_cons_of_mem _ h')⟩

theorem FlushedBy.flushesByte {P : List Op} (hP : FlushedBy P) : FlushesByte x P := by
  induction P with
  | nil => trivial
  | cons o os ih => exact ⟨fun hw => hP.1 _ (Op.touches_of_writes hw), ih hP.2⟩

theorem FlushesByte.not_writes {P : List Op} (hP : FlushesByte x P)
    (hs : ∀ o ∈ P, ¬ o.Schedules (.data (x / 64))) : ∀ o ∈ P, ¬ o.Writes x := by
  induction P with
  | nil => exact fun o h => absurd h (List.not_mem_nil o)
  | cons o os ih =>
    have hs' := fun o' h' => hs o' (List.mem_cons_of_mem _ h')
    intro o' ho' hw
    rcases List.mem_cons.mp ho' with rfl | ho'
    · rcases hP.1 hw with h | ⟨o'', h'', h⟩
      · exact hs o' (List.mem_cons_self _ _) h
      · exact hs' o'' h'' h
    · exact ih hP.2 hs' o' ho' hw

theorem FlushesByte.run_take {P : List Op} (hP : FlushesByte x P) :
    ∀ (m : Pmem) (a : Nat), (∀ i o, P[i]? = some o → o.Schedules (.data (x / 64)) → i < a) →
      (m.run ((P ++ [Op.fence]).take a)).bytes x = (m.run P).bytes x := by
  induction P with
  | nil =>
    intro m a _
    cases a
    · rfl
    · simp only [List.nil_append, List.take_succ_cons, List.take_nil, Pmem.run_cons, Pmem.run_nil]
      rfl
  | cons o os ih =>
    intro m a ha
    cases a with
    | zero =>
      refine (Pmem.run_bytes_of_not_writes (hP.not_writes fun o' ho' hs => ?_)).symm
      obtain ⟨i, hi, rfl⟩ := List.getElem_of_mem ho'
      exact absurd (ha i _ (List.getElem?_eq_getElem hi) hs) (Nat.not_lt_zero i)
    | succ a =>
      exact ih hP.2 (m.step o) a fun i o' h hs =>
        Nat.succ_lt_succ_iff.mp (ha (i + 1) o' (by rwa [List.getElem?_cons_succ]) hs)

/-- A crash after a run that ends in a fence: a byte every store to which was sent on before the
fence is on the medium as the run left it. -/
theorem image_bytes_fenced {m : Pmem} {P : List Op} {k : Line → Nat} (hP : FlushesByte x P)
    (hd : ∀ i, Durable (P ++ [.fence]) (P.length + 1) (.data (x / 64)) i → i < k (.data (x / 64))) :
    (m.image (P ++ [.fence]) k).bytes x = (m.run P).bytes x :=
  hP.run_take m _ fun i o h hs => by
    have hi : i < P.length := (List.getElem?_eq_some_iff.mp h).1
    refine hd i ⟨o, by rwa [List.getElem?_append_left hi], hs, P.length, hi, Nat.lt_succ_self _, ?_⟩
    rw [List.getElem?_append_right (Nat.le_refl _), Nat.sub_self]
    rfl

end FlushesByte

end Nova
