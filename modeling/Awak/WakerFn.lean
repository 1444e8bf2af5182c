/-
  `waker_fn` of `waker_fn.rs`: wakers that share one closure in an `Arc`.

  A `Waker` holds the raw pointer of an `Arc`.  The functions of the vtable turn it
  back into an `Arc`: `wake` and `drop` own it and drop it, `clone` and
  `wake_by_ref` only borrow it (`ManuallyDrop`), and `clone` forgets the new `Arc`
  in favour of the new `Waker`.  Each change of the count, and each access of the
  running closure to what it has captured, is one step of a thread; a thread
  whose closure calls wakers is another index.

  A `Waker` is moved into `wake` and `drop`, which the borrow checker allows only
  while nothing borrows it, and is borrowed by `clone` and `wake_by_ref` until
  they return.

  * `owners`: how many wakers and calls in progress own the `Arc` of a pointer;
  * `waker_fn_sound`: no step touches a closure that is not allocated, and a
    closure is freed with its last owner.
-/
import Awak.Lib.Arc
import Awak.Lib.Ledger
import Awak.Lib.Lts

namespace Awak.WakerFn

variable {ι κ P : Type}

/-- The calls of a thread. -/
inductive Pc (κ P : Type) where
  | idle
  /-- `arc.clone()` is next, with the waker borrowed -/
  | clone (w : κ) (p : P)
  /-- the clone is forgotten, the new `RawWaker` not returned yet -/
  | cloned (p : P)
  /-- the closure runs, with its `Arc` owned -/
  | wake (p : P)
  /-- the closure runs, with the waker borrowed -/
  | wakeByRef (w : κ) (p : P)
  /-- the `Arc` is about to be dropped -/
  | drop (p : P)
  deriving DecidableEq

/-- The waker that a call borrows. -/
def Pc.borrows : Pc κ P → Option (κ × P)
  | clone w p | wakeByRef w p => some (w, p)
  | _ => none

/-- The pointer whose `Arc` a call owns. -/
def Pc.owns : Pc κ P → Option P
  | cloned p | wake p | drop p => some p
  | _ => none

/-- The wakers with their pointers and the calls in progress; `ub` is set by a step on a
    pointer that is not allocated. -/
structure State (ι κ P : Type) where
  heap : Arc.Heap P
  wakers : κ → Option P
  pc : ι → Pc κ P
  ub : Bool

/-- No waker has been made. -/
def init : State ι κ P := ⟨⟨fun _ => none⟩, fun _ => none, fun _ => .idle, false⟩

/-- The calls of a thread, and the steps of the one in progress. -/
inductive Act (ι κ P : Type) where
  /-- `waker_fn`, whose `Arc::new` allocates at `p` -/
  | new (i : ι) (w : κ) (p : P)
  | clone (i : ι) (w : κ)
  | wake (i : ι) (w : κ)
  | wakeByRef (i : ι) (w : κ)
  | drop (i : ι) (w : κ)
  /-- the running closure reads what it has captured -/
  | touch (i : ι)
  /-- the next step of a call; a closure returns -/
  | next (i : ι)
  /-- `clone` returns the waker `w` -/
  | ret (i : ι) (w : κ)

section Steps
variable [DecidableEq ι] [DecidableEq κ] [DecidableEq P]

/-- Thread `i` goes to `p`. -/
def State.goto (s : State ι κ P) (i : ι) (p : Pc κ P) : State ι κ P :=
  { s with pc := Function.update s.pc i p }

/-- The pointer of the waker `w` becomes `p`. -/
def State.setWaker (s : State ι κ P) (w : κ) (p : Option P) : State ι κ P :=
  { s with wakers := Function.update s.wakers w p }

/-- Go on with the heap that an operation leaves. -/
def State.apply (s : State ι κ P) (i : ι) (p : Pc κ P) : Option (Arc.Heap P) → State ι κ P
  | some heap => { s with heap := heap }.goto i p
  | none => { s with ub := true }

variable [Fintype ι]

/-- One operation on a count or a closure; a waker that is borrowed is not dropped or woken. -/
def step (s : State ι κ P) : Act ι κ P → Option (State ι κ P)
  | .new i w p =>
    if s.pc i = .idle ∧ s.wakers w = none ∧ s.heap.strong p = none then
      some ({ s with heap := s.heap.new p }.setWaker w (some p))
    else none
  | .clone i w =>
    match s.wakers w with
    | some p => if s.pc i = .idle then some (s.goto i (.clone w p)) else none
    | none => none
  | .wake i w =>
    match s.wakers w with
    | some p =>
      if s.pc i = .idle ∧ ∀ j, (s.pc j).borrows ≠ some (w, p) then
        some ((s.setWaker w none).goto i (.wake p))
      else none
    | none => none
  | .wakeByRef i w =>
    match s.wakers w with
    | some p => if s.pc i = .idle then some (s.goto i (.wakeByRef w p)) else none
    | none => none
  | .drop i w =>
    match s.wakers w with
    | some p =>
      if s.pc i = .idle ∧ ∀ j, (s.pc j).borrows ≠ some (w, p) then
        some ((s.setWaker w none).goto i (.drop p))
      else none
    | none => none
  | .touch i =>
    match s.pc i with
    | .wake p | .wakeByRef _ p => some { s with ub := s.ub || !s.heap.live p }
    | _ => none
  | .next i =>
    match s.pc i with
    | .clone _ p => some (s.apply i (.cloned p) (s.heap.clone p))
    | .wake p => some (s.goto i (.drop p))
    | .wakeByRef _ _ => some (s.goto i .idle)
    | .drop p => some (s.apply i .idle (s.heap.drop p))
    | _ => none
  | .ret i w =>
    match s.pc i with
    | .cloned p => if s.wakers w = none then some ((s.setWaker w (some p)).goto i .idle) else none
    | _ => none

/-- Any threads, wakers and closures. -/
def system : Lts (State ι κ P) (Act ι κ P) where
  init s := s = init
  step := step

end Steps

/-! ## Ownership -/

section Owners
variable [Fintype ι] [Fintype κ] [DecidableEq P]

/-- The owners of the `Arc` at `p`: the wakers with this pointer, and the calls that have
    taken it out of a waker or are still to put it into one. -/
def owners (s : State ι κ P) (p : P) : ℕ :=
  (∑ w, if s.wakers w = some p then 1 else 0) + ∑ i, if (s.pc i).owns = some p then 1 else 0

/-- A waker is not moved while it is borrowed. -/
def Borrowed (s : State ι κ P) : Prop :=
  ∀ i w p, (s.pc i).borrows = some (w, p) → s.wakers w = some p

/-- The invariant: every count is that of the owners, and nothing freed was used. -/
structure Inv (s : State ι κ P) : Prop where
  owned : s.heap.Owned (owners s)
  borrowed : Borrowed s
  safe : s.ub = false

variable {s s' : State ι κ P} {i : ι} {w : κ} {p : P} {c : Pc κ P}

/-- A pointer with an owner. -/
theorem owners_of_waker (hw : s.wakers w = some p) : owners s p ≠ 0 := by
  have hle := Finset.single_le_sum (f := fun w => if s.wakers w = some p then 1 else 0)
    (fun _ _ => Nat.zero_le _) (Finset.mem_univ w)
  rw [if_pos hw] at hle
  unfold owners
  omega

theorem owners_of_owns (hi : (s.pc i).owns = some p) : owners s p ≠ 0 := by
  have hle := Finset.single_le_sum (f := fun i => if (s.pc i).owns = some p then 1 else 0)
    (fun _ _ => Nat.zero_le _) (Finset.mem_univ i)
  rw [if_pos hi] at hle
  unfold owners
  omega

theorem Inv.live_waker (h : Inv s) (hw : s.wakers w = some p) : s.heap.live p = true :=
  h.owned.live (owners_of_waker hw)

variable [DecidableEq ι] [DecidableEq κ]

omit [DecidableEq ι] in
theorem owners_setWaker (s : State ι κ P) (w : κ) (q : Option P) (p : P) :
    owners (s.setWaker w q) p + (if s.wakers w = some p then 1 else 0) =
      owners s p + if q = some p then 1 else 0 := by
  have hsum := Ledger.sum_update (fun x : Option P => if x = some p then 1 else 0) s.wakers w q
  unfold owners State.setWaker
  dsimp only at hsum ⊢
  omega

omit [DecidableEq κ] in
theorem owners_goto (s : State ι κ P) (i : ι) (c : Pc κ P) (p : P) :
    owners (s.goto i c) p + (if (s.pc i).owns = some p then 1 else 0) =
      owners s p + if c.owns = some p then 1 else 0 := by
  have hsum := Ledger.sum_update (fun x : Pc κ P => if x.owns = some p then 1 else 0) s.pc i c
  unfold owners State.goto
  dsimp only at hsum ⊢
  omega

omit [Fintype ι] [Fintype κ] [DecidableEq P] [DecidableEq κ] in
theorem Borrowed.goto (h : Borrowed s) (hc : ∀ w p, c.borrows = some (w, p) → s.wakers w = some p) :
    Borrowed (s.goto i c) := by
  intro j w p hj
  by_cases hij : j = i
  · subst hij
    simp only [State.goto, Function.update_self] at hj
    exact hc w p hj
  · simp only [State.goto, Function.update_of_ne hij] at hj
    exact h j w p hj

omit [Fintype ι] [Fintype κ] [DecidableEq P] [DecidableEq ι] in
/-- A waker that is not borrowed can be taken, and a free one be set. -/
theorem Borrowed.setWaker (h : Borrowed s) (q : Option P)
    (hno : ∀ j p, (s.pc j).borrows ≠ some (w, p)) : Borrowed (s.setWaker w q) := by
  intro j w' p hj
  have hne : w' ≠ w := by
    rintro rfl
    exact hno j p hj
  simp only [State.setWaker, Function.update_of_ne hne]
  exact h j w' p hj

omit [DecidableEq κ] in
/-- A call that borrows nothing more and owns what it did before. -/
theorem Inv.goto (h : Inv s) (howns : c.owns = (s.pc i).owns)
    (hc : ∀ w p, c.borrows = some (w, p) → s.wakers w = some p) : Inv (s.goto i c) := by
  have howners : owners (s.goto i c) = owners s := by
    funext p
    have := owners_goto s i c p
    rw [howns] at this
    omega
  exact ⟨by rw [howners]; exact h.owned, h.borrowed.goto hc, h.safe⟩

/-- A call moves its `Arc` out of a waker, or a new one into it. -/
theorem Inv.moveWaker (h : Inv s) {q : Option P} (hno : ∀ j p, (s.pc j).borrows ≠ some (w, p))
    (howns : ∀ p, (if q = some p then 1 else 0) + (if c.owns = some p then 1 else 0) =
      (if s.wakers w = some p then 1 else 0) + if (s.pc i).owns = some p then 1 else 0)
    (hc : c.borrows = none) : Inv ((s.setWaker w q).goto i c) := by
  have howners : owners ((s.setWaker w q).goto i c) = owners s := by
    funext p
    have hset := owners_setWaker s w q p
    have hgoto := owners_goto (s.setWaker w q) i c p
    have hp := howns p
    change _ + (if (s.pc i).owns = some p then 1 else 0) = _ at hgoto
    omega
  refine ⟨by rw [howners]; exact h.owned, (h.borrowed.setWaker q hno).goto ?_, h.safe⟩
  intro w p hb
  rw [hc] at hb
  cases hb

omit [DecidableEq κ] in
/-- One more owner. -/
theorem Inv.clone (h : Inv s) (hi : s.pc i = .clone w p) :
    Inv (s.apply i (.cloned p) (s.heap.clone p)) := by
  have hw : s.wakers w = some p := h.borrowed i w p (by rw [hi]; rfl)
  have howners : owners (s.goto i (.cloned p)) =
      Function.update (owners s) p (owners s p + 1) := by
    funext q
    have := owners_goto s i (.cloned p) q
    simp only [hi, Pc.owns, Option.some.injEq, reduceCtorEq, if_false, add_zero] at this
    rw [this, Function.update_apply]
    by_cases hq : q = p
    · simp [hq]
    · simp [hq, Ne.symm hq]
  obtain ⟨heap, hheap, howned⟩ := h.owned.clone (owners_of_waker hw) howners
  rw [hheap]
  exact ⟨howned, h.borrowed.goto (by simp [Pc.borrows]), h.safe⟩

omit [DecidableEq κ] in
/-- One owner less. -/
theorem Inv.drop (h : Inv s) (hi : s.pc i = .drop p) :
    Inv (s.apply i .idle (s.heap.drop p)) := by
  have howns : (s.pc i).owns = some p := by rw [hi]; rfl
  have howners : owners (s.goto i .idle) = Function.update (owners s) p (owners s p - 1) := by
    funext q
    have := owners_goto s i .idle q
    simp only [hi, Pc.owns, Option.some.injEq, reduceCtorEq, if_false, add_zero] at this
    rw [Function.update_apply]
    by_cases hq : q = p
    · subst hq
      rw [if_pos rfl] at this ⊢
      omega
    · rw [if_neg (Ne.symm hq)] at this
      rw [if_neg hq]
      omega
  obtain ⟨heap, hheap, howned⟩ := h.owned.drop (owners_of_owns howns) howners
  rw [hheap]
  exact ⟨howned, h.borrowed.goto (by simp [Pc.borrows]), h.safe⟩

omit [DecidableEq ι] in
/-- `waker_fn`: a new allocation with one owner. -/
theorem Inv.new (h : Inv s) (hw : s.wakers w = none) (hp : s.heap.strong p = none) :
    Inv (State.setWaker { s with heap := s.heap.new p } w (some p)) := by
  have howners : owners (s.setWaker w (some p)) = Function.update (owners s) p 1 := by
    have hzero := h.owned.free_iff.1 hp
    funext q
    have := owners_setWaker s w (some p) q
    simp only [hw, Option.some.injEq, reduceCtorEq, if_false, add_zero] at this
    rw [Function.update_apply]
    by_cases hq : q = p
    · subst hq
      rw [if_pos rfl] at this ⊢
      omega
    · rw [if_neg (Ne.symm hq)] at this
      rw [if_neg hq]
      omega
  refine ⟨h.owned.new howners, h.borrowed.setWaker _ fun j q hj => ?_, h.safe⟩
  cases hw.symm.trans (h.borrowed j w q hj)

/-- A waker is moved into a call. -/
theorem Inv.take (h : Inv s) (hw : s.wakers w = some p) (hi : s.pc i = .idle)
    (hno : ∀ j, (s.pc j).borrows ≠ some (w, p)) (howns : c.owns = some p)
    (hc : c.borrows = none) : Inv ((s.setWaker w none).goto i c) := by
  refine h.moveWaker (fun j q hj => ?_) (fun q => ?_) hc
  · cases hw.symm.trans (h.borrowed j w q hj)
    exact hno j hj
  · rw [hw, hi, howns]
    simp [Pc.owns]

theorem Inv.step (h : Inv s) {a : Act ι κ P} (hs : step s a = some s') : Inv s' := by
  cases a with
  | new i w p =>
    obtain ⟨⟨-, hw, hp⟩, hs⟩ := Option.ite_none_right_eq_some.1 hs
    cases hs
    exact h.new hw hp
  | clone i w =>
    simp only [WakerFn.step] at hs
    split at hs
    next p hw =>
      obtain ⟨hi, hs⟩ := Option.ite_none_right_eq_some.1 hs
      cases hs
      refine h.goto (by rw [hi]; rfl) fun w' p' hb => ?_
      cases hb
      exact hw
    next => cases hs
  | wake i w =>
    simp only [WakerFn.step] at hs
    split at hs
    next p hw =>
      obtain ⟨⟨hi, hno⟩, hs⟩ := Option.ite_none_right_eq_some.1 hs
      cases hs
      exact h.take hw hi hno rfl rfl
    next => cases hs
  | wakeByRef i w =>
    simp only [WakerFn.step] at hs
    split at hs
    next p hw =>
      obtain ⟨hi, hs⟩ := Option.ite_none_right_eq_some.1 hs
      cases hs
      refine h.goto (by rw [hi]; rfl) fun w' p' hb => ?_
      cases hb
      exact hw
    next => cases hs
  | drop i w =>
    simp only [WakerFn.step] at hs
    split at hs
    next p hw =>
      obtain ⟨⟨hi, hno⟩, hs⟩ := Option.ite_none_right_eq_some.1 hs
      cases hs
      exact h.take hw hi hno rfl rfl
    next => cases hs
  | touch i =>
    have hlive : ∀ p, s.heap.live p = true → Inv { s with ub := s.ub || !s.heap.live p } := by
      intro p hp
      exact ⟨h.owned, h.borrowed, by simp [h.safe, hp]⟩
    simp only [WakerFn.step] at hs
    split at hs <;> cases hs
    next p hi => exact hlive p (h.owned.live (owners_of_owns (i := i) (by rw [hi]; rfl)))
    next w p hi => exact hlive p (h.live_waker (h.borrowed i w p (by rw [hi]; rfl)))
  | next i =>
    simp only [WakerFn.step] at hs
    split at hs <;> cases hs
    next w p hi => exact h.clone hi
    next p hi => exact h.goto (by rw [hi]; rfl) (by simp [Pc.borrows])
    next w p hi => exact h.goto (by rw [hi]; rfl) (by simp [Pc.borrows])
    next p hi => exact h.drop hi
  | ret i w =>
    simp only [WakerFn.step] at hs
    split at hs
    next p hi =>
      obtain ⟨hw, hs⟩ := Option.ite_none_right_eq_some.1 hs
      cases hs
      refine h.moveWaker (fun j q hj => ?_) (fun q => ?_) rfl
      · cases hw.symm.trans (h.borrowed j w q hj)
      · simp [hw, hi, Pc.owns]
    next => cases hs

theorem inv_reach (h : (system : Lts (State ι κ P) (Act ι κ P)).Reachable s) : Inv s := by
  refine h.inv (P := Inv) ?_ fun s a s' _ hi _ hs => hi.step hs
  rintro _ rfl
  refine ⟨fun p => ?_, fun i w p hi => ?_, rfl⟩
  · simp [init, owners, Pc.owns]
  · cases hi

/-- **Wakers of `waker_fn` are sound.** In every interleaving of any threads that clone, wake
    and drop them, no step uses a closure that is not allocated, whether it counts or runs
    it; the count of a closure is the number of its owners, so that it is freed by the last
    of them, never before and always then. -/
theorem waker_fn_sound (h : (system : Lts (State ι κ P) (Act ι κ P)).Reachable s) :
    s.ub = false ∧ (∀ p, s.heap.strong p = none ↔ owners s p = 0) ∧
      ∀ p n, s.heap.strong p = some n → n = owners s p := by
  have hinv := inv_reach h
  refine ⟨hinv.safe, fun p => hinv.owned.free_iff, fun p n hn => ?_⟩
  have howned := hinv.owned p
  rw [hn] at howned
  split_ifs at howned with hp
  exact Option.some_inj.1 howned

end Owners

/-- One thread wakes a clone while the other clones the waker and drops it: the closure is
    freed when the last of the three is gone. -/
def cloneRun : List (Act (Fin 2) (Fin 3) ℕ) :=
  [.new 0 0 5, .clone 0 0, .next 0, .ret 0 1, .clone 1 0, .wake 0 1, .touch 0, .next 1, .next 0,
    .ret 1 2, .next 0, .drop 1 0, .next 1, .wakeByRef 0 2, .touch 0, .next 0]

theorem waker_fn_sound_clone :
    (∃ s : State (Fin 2) (Fin 3) ℕ, system.run init cloneRun = some s ∧ s.ub = false ∧
      s.heap.strong 5 = some 1 ∧ owners s 5 = 1) ∧
    ∃ s : State (Fin 2) (Fin 3) ℕ, system.run init (cloneRun ++ [.drop 1 2, .next 1]) = some s ∧
      s.heap.strong 5 = none ∧ owners s 5 = 0 := by
  constructor
  · obtain ⟨s, hs, hstrong⟩ : ∃ s : State (Fin 2) (Fin 3) ℕ,
        system.run init cloneRun = some s ∧ s.heap.strong 5 = some 1 :=
      Lts.exists_run (by decide +kernel)
    obtain ⟨hub, -, hcount⟩ := waker_fn_sound (.run (.init rfl) (Lts.meets_true _ cloneRun) hs)
    exact ⟨s, hs, hub, hstrong, (hcount 5 1 hstrong).symm⟩
  · obtain ⟨s, hs, hstrong⟩ : ∃ s : State (Fin 2) (Fin 3) ℕ,
        system.run init (cloneRun ++ [.drop 1 2, .next 1]) = some s ∧ s.heap.strong 5 = none :=
      Lts.exists_run (by decide +kernel)
    obtain ⟨-, hfree, -⟩ := waker_fn_sound (.run (.init rfl) (Lts.meets_true _ _) hs)
    exact ⟨s, hs, hstrong, (hfree 5).1 hstrong⟩

end Awak.WakerFn
