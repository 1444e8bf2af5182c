/-
  The tasks in the queues of the executor.

  Where a runnable is can be read off the state: in the global queue, in a local
  queue, in the hands of a thread (popped and not yet pushed or returned, or in a
  push that has not published it), returned by `search`, or dropped.

  * `Local.load`: how often a local queue, with its calls in flight, holds a
    runnable; a call takes from the queue what it returns and adds what it is given;
  * `Room`: what a worker in `steal` knows about its own queue.  Nobody else pushes
    to it, so the room it has seen is still there;
  * `Tidy`: no push in `steal` fails, nothing underflows, nothing panics;
  * `conservation`: every runnable is in exactly one place.
-/
import Awak.Lib.Ledger
import Awak.Wakeups

namespace Awak

open Word

variable {n m : ℕ} {R : Type}

/-! ## The load of a local queue -/

section Load
variable {ι T : Type}

/-- The value that a `pop` has taken and not yet returned. -/
def PopPc.value : PopPc T → List T
  | .ret (.ok (some value)) => [value]
  | _ => []

/-- The value that a `push` has been given and has not published. -/
def PushPc.value : PushPc T → List T
  | .loadTail value _ _ _ | .write value _ | .store value _ | .ret (.errorFull value) => [value]
  | .idle | .ret .ok => []

namespace Local

/-- The number of times `r` is in the queue or in a call on it. -/
def load [Fintype ι] [DecidableEq T] (l : Local ι T) (r : T) : ℕ :=
  l.items.count r + l.pushing.value.count r + ∑ i, (l.popping i).value.count r

variable {l l' : Local ι T} {i : ι}

section Next
variable [DecidableEq ι]

theorem popNext_cases {res : Option (PopRes T)} (h : l.popNext i = some (l', res)) :
    (res = none ∧ (l.popCall i = some l' ∨ l.popStep i = some l')) ∨
    ∃ v, res = some v ∧ l.popping i = .ret v ∧ l' = l.setPop i .idle := by
  unfold popNext at h
  split at h
  next hp =>
    obtain ⟨_, hl, ⟨⟩⟩ := Option.map_eq_some_iff.1 h
    exact Or.inl ⟨rfl, Or.inl hl⟩
  next v hp =>
    obtain ⟨_, hl, ⟨⟩⟩ := Option.map_eq_some_iff.1 h
    simp only [popRet, hp] at hl
    cases hl
    exact Or.inr ⟨v, rfl, hp, rfl⟩
  next =>
    obtain ⟨_, hl, ⟨⟩⟩ := Option.map_eq_some_iff.1 h
    exact Or.inl ⟨rfl, Or.inr hl⟩

theorem lenNext_cases {res : Option ℕ} (h : l.lenNext i = some (l', res)) :
    (res = none ∧ (l.lenCall i = some l' ∨ l.lenStep i = some l')) ∨
    ∃ length seen made now, res = some length ∧ l.counting i = .ret length seen made now ∧
      l' = l.setLen i .idle := by
  unfold lenNext at h
  split at h
  next hp =>
    obtain ⟨_, hl, ⟨⟩⟩ := Option.map_eq_some_iff.1 h
    exact Or.inl ⟨rfl, Or.inl hl⟩
  next length seen made now hp =>
    obtain ⟨_, hl, ⟨⟩⟩ := Option.map_eq_some_iff.1 h
    simp only [lenRet, hp] at hl
    cases hl
    exact Or.inr ⟨length, seen, made, now, rfl, hp, rfl⟩
  next =>
    obtain ⟨_, hl, ⟨⟩⟩ := Option.map_eq_some_iff.1 h
    exact Or.inl ⟨rfl, Or.inr hl⟩

end Next

theorem pushNext_cases {res : Option (PushRes T)} (h : l.pushNext = some (l', res)) :
    (res = none ∧ l.pushStep = some l') ∨
    ∃ v, res = some v ∧ l.pushing = .ret v ∧ l' = { l with pushing := .idle } := by
  unfold pushNext at h
  split at h
  next v hp =>
    obtain ⟨_, hl, ⟨⟩⟩ := Option.map_eq_some_iff.1 h
    simp only [pushRet, hp] at hl
    cases hl
    exact Or.inr ⟨v, rfl, hp, rfl⟩
  next =>
    obtain ⟨_, hl, ⟨⟩⟩ := Option.map_eq_some_iff.1 h
    exact Or.inl ⟨rfl, hl⟩

namespace Inv
variable {start : ℕ}

theorem popNext [DecidableEq ι] (h : Inv start l) (hf : l.Fresh) {res : Option (PopRes T)}
    (hs : l.popNext i = some (l', res)) : Inv start l' := by
  obtain ⟨-, hn | hn⟩ | ⟨v, -, -, rfl⟩ := popNext_cases hs
  · exact h.popCall hn
  · exact h.popStep hf hn
  · exact h.setPop i trivial

theorem lenNext [DecidableEq ι] (h : Inv start l) {res : Option ℕ}
    (hs : l.lenNext i = some (l', res)) : Inv start l' := by
  obtain ⟨-, hn | hn⟩ | ⟨_, _, _, _, -, -, rfl⟩ := lenNext_cases hs
  · exact h.lenCall hn
  · exact h.lenStep hn
  · exact h.setLen i trivial

theorem pushNext (h : Inv start l) {res : Option (PushRes T)}
    (hs : l.pushNext = some (l', res)) : Inv start l' := by
  obtain ⟨-, hn⟩ | ⟨v, -, -, rfl⟩ := pushNext_cases hs
  · exact h.pushStep hn
  · exact h.setPush trivial

end Inv

section Load
variable [Fintype ι] [DecidableEq ι] [DecidableEq T] {start : ℕ}

theorem load_setPop (l : Local ι T) (i : ι) (p : PopPc T) (r : T) :
    (l.setPop i p).load r + (l.popping i).value.count r = l.load r + p.value.count r := by
  have := Ledger.sum_update (fun q => (PopPc.value q).count r) l.popping i p
  simp only [load, setPop, items] at *
  omega

/-- What a `pop` returns leaves the queue. -/
theorem popNext_load (h : Inv start l) (hf : l.Fresh) {res : Option (PopRes T)}
    (hs : l.popNext i = some (l', res)) (r : T) :
    l'.load r + (res.elim [] fun v => (PopPc.ret v).value).count r = l.load r := by
  obtain ⟨rfl, hs | hs⟩ | ⟨v, rfl, hp, rfl⟩ := popNext_cases hs
  · unfold popCall at hs
    split at hs <;> cases hs
    next hp => simpa [hp, PopPc.value] using l.load_setPop i (.loadTail _ _ _) r
  · unfold popStep at hs
    split at hs
    next head since seen hp =>
      split_ifs at hs <;> cases hs
      · simpa [hp, PopPc.value] using l.load_setPop i (.ret .errorEmpty) r
      · simpa [hp, PopPc.value] using l.load_setPop i (.readSlot _ _ _) r
    next head since seen hp =>
      cases hs
      simpa [hp, PopPc.value] using l.load_setPop i (.cas _ _ _ _) r
    next head value since seen hp =>
      split_ifs at hs with hh <;> cases hs
      · -- the compare-exchange takes the oldest item
        subst hh
        obtain ⟨-, hv, hlt⟩ := h.cas_claims hf hp
        rw [List.getElem?_eq_getElem hlt] at hv
        have hitems : l.items = l.pushed[l.popped.length] :: l.pushed.drop (l.popped.length + 1) :=
          List.drop_eq_getElem_cons hlt
        have hsum := Ledger.sum_update (fun q => (PopPc.value q).count r) l.popping i
          (.ret (.ok value))
        have hcas : (PopPc.cas l.head value since seen).value = [] := rfl
        have hret : (PopPc.ret (.ok value)).value = [l.pushed[l.popped.length]] := by rw [hv]; rfl
        rw [hp, hcas, hret, List.count_nil] at hsum
        rw [items] at hitems
        simp only [load, setPop, items, List.length_append, List.length_singleton, hitems,
          List.count_cons, List.count_nil, Option.elim_none] at hsum ⊢
        omega
      · simpa [hp, PopPc.value] using l.load_setPop i (.loadTail _ _ _) r
    all_goals cases hs
  · have := l.load_setPop i .idle r
    simp only [hp] at this
    simpa [PopPc.value] using this

theorem lenNext_load {res : Option ℕ} (hs : l.lenNext i = some (l', res)) (r : T) :
    l'.load r = l.load r := by
  obtain ⟨-, hs | hs⟩ | ⟨_, _, _, _, -, -, rfl⟩ := lenNext_cases hs
  · unfold lenCall at hs
    split at hs <;> cases hs
    rfl
  · unfold lenStep at hs
    split at hs <;> cases hs
    rfl
  · rfl

omit [DecidableEq ι] in
theorem pushCall_load {value : T} (hs : l.pushCall value = some l') (r : T) :
    l'.load r = l.load r + [value].count r := by
  unfold pushCall at hs
  split at hs <;> cases hs
  next hp =>
    simp only [load, items, hp, PushPc.value, List.count_nil]
    omega

omit [DecidableEq ι] in
/-- A `push` returns what it has not published. -/
theorem pushNext_load (h : Inv start l) {res : Option (PushRes T)}
    (hs : l.pushNext = some (l', res)) (r : T) :
    l'.load r + (res.elim [] fun v => (PushPc.ret v).value).count r = l.load r := by
  obtain ⟨rfl, hn⟩ | ⟨v, rfl, hp, rfl⟩ := pushNext_cases hs
  · simp only [Option.elim_none, List.count_nil, Nat.add_zero]
    unfold pushStep at hn
    split at hn
    next value head seen held hp =>
      split_ifs at hn <;> cases hn <;> simp [load, items, hp, PushPc.value]
    next value tail hp => cases hn; simp [load, items, hp, PushPc.value]
    next value tail hp =>
      cases hn
      simp only [load, items, hp, PushPc.value, List.drop_append_of_le_length h.le,
        List.count_append, List.count_nil]
      omega
    all_goals cases hn
  · simp only [load, items, hp, PushPc.value, List.count_nil, Option.elim_some]
    omega

end Load
end Local
end Load

/-! ## What a worker in `steal` knows -/

namespace Local
section Room
variable {ι T : Type} {l l' : Local ι T} {i : ι} {left : ℕ}

/-- A `len` by the owner: nothing is pushed meanwhile. -/
def LenNow (l : Local ι T) : LenPc → Prop
  | .idle => True
  | .loadTail _ _ made => made = l.pushed.length
  | .ret _ _ made now => made = now ∧ now = l.pushed.length

/-- The push in flight fits, and so do `left` more. -/
def PushRoom (l : Local ι T) (left : ℕ) : PushPc T → Prop
  | .idle => True
  | .loadTail _ _ _ held => held + left + 1 ≤ l.capacity
  | .write _ _ | .store _ _ => l.pushed.length + left + 1 ≤ l.popped.length + l.capacity
  | .ret .ok => l.pushed.length + left ≤ l.popped.length + l.capacity
  | .ret (.errorFull _) => False

theorem pushCall_room (h : Inv 0 l) {value : T} (hs : l.pushCall value = some l')
    (hr : l.pushed.length + left + 1 ≤ l.popped.length + l.capacity) :
    l'.PushRoom left l'.pushing ∧ l'.counting = l.counting := by
  unfold pushCall at hs
  split at hs <;> cases hs
  have := h.items_length
  refine ⟨?_, rfl⟩
  show l.items.length + left + 1 ≤ l.capacity
  omega

/-- With room for it, a `push` succeeds. -/
theorem pushNext_room (h : Inv 0 l) {res : Option (PushRes T)} (hs : l.pushNext = some (l', res))
    (hr : l.PushRoom left l.pushing) :
    l'.counting = l.counting ∧ (res = none → l'.PushRoom left l'.pushing) ∧
      ∀ v, res = some v → v = .ok ∧ l'.pushed.length + left ≤ l'.popped.length + l'.capacity := by
  obtain ⟨rfl, hn⟩ | ⟨v, rfl, hp, rfl⟩ := pushNext_cases hs
  · have hok := h.push
    unfold pushStep at hn
    split at hn
    next value head seen held hp =>
      have hd := h.push_distance hp
      rw [hp] at hok hr
      obtain ⟨h1, h2, h3, h4⟩ := hok
      have hr' : held + left + 1 ≤ l.capacity := hr
      rw [if_pos (by omega)] at hn
      cases hn
      refine ⟨rfl, fun _ => ?_, by simp⟩
      show l.pushed.length + left + 1 ≤ l.popped.length + l.capacity
      omega
    next value tail hp =>
      cases hn
      rw [hp] at hr
      exact ⟨rfl, fun _ => hr, by simp⟩
    next value tail hp =>
      cases hn
      rw [hp] at hr
      refine ⟨rfl, fun _ => ?_, by simp⟩
      have hr' : l.pushed.length + left + 1 ≤ l.popped.length + l.capacity := hr
      show (l.pushed ++ [value]).length + left ≤ l.popped.length + l.capacity
      rw [List.length_append, List.length_singleton]; omega
    all_goals cases hn
  · rw [hp] at hr
    refine ⟨rfl, by simp, ?_⟩
    rintro _ ⟨⟩
    cases v with
    | ok => exact ⟨rfl, hr⟩
    | errorFull t => exact hr.elim

theorem pushCall_counting {value : T} (hs : l.pushCall value = some l') :
    l'.counting = l.counting := by
  unfold pushCall at hs
  split at hs <;> cases hs
  rfl

theorem pushNext_counting {res : Option (PushRes T)} (hs : l.pushNext = some (l', res)) :
    l'.counting = l.counting := by
  obtain ⟨-, hn⟩ | ⟨v, -, -, rfl⟩ := pushNext_cases hs
  · unfold pushStep at hn
    split at hn
    · split_ifs at hn <;> cases hn <;> rfl
    all_goals cases hn
    all_goals rfl
  · rfl

variable [DecidableEq ι]

theorem popNext_counting {res : Option (PopRes T)} (hs : l.popNext i = some (l', res)) :
    l'.counting = l.counting := by
  obtain ⟨-, hn | hn⟩ | ⟨v, -, -, rfl⟩ := popNext_cases hs
  · unfold popCall at hn
    split at hn <;> cases hn
    rfl
  · unfold popStep at hn
    split at hn
    · split_ifs at hn <;> cases hn <;> rfl
    · cases hn; rfl
    · split_ifs at hn <;> cases hn <;> rfl
    all_goals cases hn
  · rfl

/-- A `pop` never returns a value that was not written. -/
theorem popNext_ok (h : Inv 0 l) {v : Option T} (hs : l.popNext i = some (l', some (.ok v))) :
    v.isSome := by
  obtain ⟨hn, -⟩ | ⟨_, ⟨⟩, hp, -⟩ := popNext_cases hs
  · cases hn
  · have hok := h.pop i
    rw [hp] at hok
    exact hok

theorem lenNext_le (h : Inv 0 l) {length : ℕ} (hs : l.lenNext i = some (l', some length)) :
    length ≤ l.capacity := by
  obtain ⟨hn, -⟩ | ⟨_, _, _, _, ⟨⟩, hp, -⟩ := lenNext_cases hs
  · cases hn
  · have hok := h.len i
    rw [hp] at hok
    exact hok.1

/-- What the owner finds free is free when `len` returns. -/
theorem lenNext_now (h : Inv 0 l) {res : Option ℕ} (hs : l.lenNext i = some (l', res))
    (hr : l.LenNow (l.counting i)) :
    (res = none → l'.LenNow (l'.counting i)) ∧
      ∀ length, res = some length → l'.counting i = .idle ∧ length ≤ l'.capacity ∧
        l'.pushed.length + (l'.capacity - length) ≤ l'.popped.length + l'.capacity := by
  obtain ⟨rfl, hn | hn⟩ | ⟨length, seen, made, now, rfl, hp, rfl⟩ := lenNext_cases hs
  · unfold lenCall at hn
    split at hn <;> cases hn
    exact ⟨fun _ => by simp [setLen, LenNow], by simp⟩
  · unfold lenStep at hn
    split at hn <;> cases hn
    next head seen made hp =>
      rw [hp] at hr
      have hr' : made = l.pushed.length := hr
      exact ⟨fun _ => by simp [setLen, LenNow, hr'], by simp⟩
  · have hok := h.len i
    rw [hp] at hok hr
    obtain ⟨h1, h2, h3, h4, h5⟩ := hok
    obtain ⟨hr1, hr2⟩ := hr
    have hlen := h5 hr1
    refine ⟨by simp, ?_⟩
    rintro _ ⟨⟩
    refine ⟨by simp [setLen], h1, ?_⟩
    show l.pushed.length + (l.capacity - length) ≤ l.popped.length + l.capacity
    omega

/-- What the calls of other threads leave alone for `i`. -/
structure Apart (i : ι) (l l' : Local ι T) : Prop where
  pushed : l'.pushed = l.pushed
  pushing : l'.pushing = l.pushing
  counting : l'.counting i = l.counting i
  popping : l'.popping i = l.popping i
  popped : l.popped.length ≤ l'.popped.length
  capacity : l'.capacity = l.capacity

omit [DecidableEq ι] in
theorem Apart.rfl : Apart i l l := ⟨by rfl, by rfl, by rfl, by rfl, le_rfl, by rfl⟩

omit [DecidableEq ι] in
theorem LenNow.apart (ha : l.Apart i l') : ∀ {p : LenPc}, l.LenNow p → l'.LenNow p
  | .idle, _ => trivial
  | .loadTail .., h => by simpa only [LenNow, ha.pushed] using h
  | .ret .., h => by simpa only [LenNow, ha.pushed] using h

omit [DecidableEq ι] in
theorem PushRoom.apart (ha : l.Apart i l') : ∀ {p : PushPc T},
    l.PushRoom left p → l'.PushRoom left p
  | .idle, _ => trivial
  | .loadTail .., h => by simpa only [PushRoom, ha.capacity] using h
  | .write .., h | .store .., h | .ret .ok, h => by
    have := ha.popped
    simp only [PushRoom, ha.pushed, ha.capacity] at h ⊢
    omega
  | .ret (.errorFull _), h => h

theorem apart_setPop {j : ι} (hj : j ≠ i) (p : PopPc T) : Apart i l (l.setPop j p) :=
  ⟨rfl, rfl, rfl, Function.update_of_ne hj.symm _ _, le_rfl, rfl⟩

theorem apart_setLen {j : ι} (hj : j ≠ i) (p : LenPc) : Apart i l (l.setLen j p) :=
  ⟨rfl, rfl, Function.update_of_ne hj.symm _ _, rfl, le_rfl, rfl⟩

theorem apart_popNext {j : ι} (hj : j ≠ i) {res : Option (PopRes T)}
    (hs : l.popNext j = some (l', res)) : Apart i l l' := by
  obtain ⟨-, hn | hn⟩ | ⟨v, -, -, rfl⟩ := popNext_cases hs
  · unfold popCall at hn
    split at hn <;> cases hn
    exact apart_setPop hj _
  · unfold popStep at hn
    split at hn
    · split_ifs at hn <;> cases hn <;> exact apart_setPop hj _
    · cases hn; exact apart_setPop hj _
    · split_ifs at hn <;> cases hn
      · exact ⟨rfl, rfl, rfl, Function.update_of_ne hj.symm _ _, by simp, rfl⟩
      · exact apart_setPop hj _
    all_goals cases hn
  · exact apart_setPop hj _

theorem apart_lenNext {j : ι} (hj : j ≠ i) {res : Option ℕ}
    (hs : l.lenNext j = some (l', res)) : Apart i l l' := by
  obtain ⟨-, hn | hn⟩ | ⟨_, _, _, _, -, -, rfl⟩ := lenNext_cases hs
  · unfold lenCall at hn
    split at hn <;> cases hn
    exact apart_setLen hj _
  · unfold lenStep at hn
    split at hn <;> cases hn
    exact apart_setLen hj _
  · exact apart_setLen hj _

end Room
end Local

/-- A worker in `steal` steals from another queue, nothing has been pushed to its own
    since it looked at its length, and what is left to steal fits. -/
def Room (w : Fin n) (l : Local (Fin n) R) : Pc n R → Prop
  | .steal src st _ => src ≠ .shard w ∧
    match st with
    | .length => l.counting w = .idle
    | .room _ => l.LenNow (l.counting w)
    | .take left => l.counting w = .idle ∧
      l.pushed.length + left ≤ l.popped.length + l.capacity
    | .push left _ => l.counting w = .idle ∧
      l.pushed.length + left + 1 ≤ l.popped.length + l.capacity
    | .pushing left => l.counting w = .idle ∧ l.PushRoom left l.pushing
  | _ => l.counting w = .idle

theorem Room.apart {w : Fin n} {l l' : Local (Fin n) R} {p : Pc n R} (h : Room w l p)
    (ha : l.Apart w l') : Room w l' p := by
  have hp := ha.popped
  unfold Room at h ⊢
  split at h
  next src st k =>
    refine ⟨h.1, ?_⟩
    replace h := h.2
    cases st with
    | length => exact ha.counting.trans h
    | room count => exact ha.counting ▸ Local.LenNow.apart ha h
    | take left =>
      obtain ⟨h1, h2⟩ : l.counting w = .idle ∧
        l.pushed.length + left ≤ l.popped.length + l.capacity := h
      refine ⟨ha.counting.trans h1, ?_⟩
      rw [ha.pushed, ha.capacity]; omega
    | push left t =>
      obtain ⟨h1, h2⟩ : l.counting w = .idle ∧
        l.pushed.length + left + 1 ≤ l.popped.length + l.capacity := h
      refine ⟨ha.counting.trans h1, ?_⟩
      rw [ha.pushed, ha.capacity]; omega
    | pushing left => exact ⟨ha.counting.trans h.1, ha.pushing ▸ Local.PushRoom.apart ha h.2⟩
  next => exact ha.counting.trans h

/-! ## Where the runnables are -/

/-- The runnable a worker holds while `steal` runs; `search` has returned the one that
    `tick` is about to return. -/
def Cont.hand : Cont R → List R
  | .found r => [r]
  | .shard _ | .ticked _ => []

/-- The task that a steal has popped and not yet pushed. -/
def StealPc.hand : StealPc R → List R
  | .push _ t => [t]
  | _ => []

/-- The tasks in the hands of a worker. -/
def Pc.hand : Pc n R → List R
  | .steal _ st k => k.hand ++ st.hand
  | _ => []

/-- The task in the hands of a call of `schedule`. -/
def Sched.hand : Sched R → List R
  | .enter r | .pushGlobal r => [r]
  | _ => []

namespace Exec

variable {s s' u : Exec n m R} {w : Fin n}

section Total
variable [DecidableEq R]

/-- How often a runnable is anywhere. -/
def total (s : Exec n m R) (r : R) : ℕ :=
  s.queue.queue.count r + ∑ q, (s.locals q).load r + ∑ w, (s.pc w).hand.count r +
    ∑ t, (s.sched t).hand.count r + s.returned.count r + s.dropped.count r

theorem total_goto (s : Exec n m R) (w : Fin n) (p : Pc n R) (r : R) :
    (s.goto w p).total r + (s.pc w).hand.count r = s.total r + p.hand.count r := by
  have := Ledger.sum_update (fun p => (Pc.hand p).count r) s.pc w p
  simp only [total, goto] at *
  omega

theorem total_setLocal (s : Exec n m R) (q : Fin n) (l : Local (Fin n) R) (r : R) :
    (s.setLocal q l).total r + (s.locals q).load r = s.total r + l.load r := by
  have := Ledger.sum_update (fun l => Local.load l r) s.locals q l
  simp only [total, setLocal] at *
  omega

theorem total_setSched (s : Exec n m R) (t : Thread n m) (p : Sched R) (r : R) :
    (s.setSched t p).total r + (s.sched t).hand.count r = s.total r + p.hand.count r := by
  have := Ledger.sum_update (fun p => (Sched.hand p).count r) s.sched t p
  simp only [total, setSched] at *
  omega

theorem total_queue (s : Exec n m R) (queue : Queue R) (r : R) :
    { s with queue := queue }.total r + s.queue.queue.count r = s.total r + queue.queue.count r := by
  simp only [total]; omega

theorem total_found (s : Exec n m R) (w : Fin n) (x r : R) :
    (s.found w x).total r + (s.pc w).hand.count r = s.total r + [x].count r := by
  have h : s.found w x = { s.goto w (.wakeSwap x) with returned := s.returned ++ [x] } := rfl
  have hg := s.total_goto w (.wakeSwap x) r
  rw [h]
  simp only [total, goto, Pc.hand, List.count_append, List.count_nil] at *
  omega

end Total

/-! ## The steps of a worker -/

/-- What has happened to the queues, before the worker moves on. -/
structure Base (w : Fin n) (s u : Exec n m R) : Prop where
  inv : ∀ q, Local.Inv 0 (u.locals q)
  apart : ∀ q, q ≠ w → (s.locals q).Apart q (u.locals q)
  pc : u.pc = s.pc
  sched : u.sched = s.sched
  dropped : u.dropped = s.dropped
  issued : u.issued = s.issued
  capacity : u.queue.capacity = s.queue.capacity

theorem Base.rfl (h : ∀ q, Local.Inv 0 (s.locals q)) : Base w s s :=
  ⟨h, fun _ _ => .rfl, by rfl, by rfl, by rfl, by rfl, by rfl⟩

theorem inv_setLocal (h : ∀ q, Local.Inv 0 (s.locals q)) {q : Fin n} {l : Local (Fin n) R}
    (hl : Local.Inv 0 l) (v : Fin n) : Local.Inv 0 ((s.setLocal q l).locals v) := by
  by_cases hv : v = q
  · subst hv; simpa [setLocal] using hl
  · simpa [setLocal, hv] using h v

theorem apart_setLocal {q : Fin n} {l : Local (Fin n) R} {v : Fin n}
    (hl : q = v → (s.locals q).Apart q l) : (s.locals v).Apart v ((s.setLocal q l).locals v) := by
  by_cases hv : v = q
  · subst hv; simpa [setLocal] using hl rfl
  · simpa [setLocal, hv] using Local.Apart.rfl

theorem Base.setLocal (h : ∀ q, Local.Inv 0 (s.locals q)) {q : Fin n} {l : Local (Fin n) R}
    (hl : Local.Inv 0 l) (ha : q ≠ w → (s.locals q).Apart q l) : Base w s (s.setLocal q l) := by
  refine ⟨inv_setLocal h hl, fun v hv => ?_, by rfl, by rfl, by rfl, by rfl, by rfl⟩
  exact apart_setLocal fun hq => ha (hq ▸ hv)

theorem Base.queue (h : ∀ q, Local.Inv 0 (s.locals q)) {queue : Queue R}
    (hc : queue.capacity = s.queue.capacity) : Base w s { s with queue := queue } :=
  { Base.rfl h with capacity := hc }

/-- What a step of worker `w` keeps. -/
structure Kept [DecidableEq R] (w : Fin n) (s s' : Exec n m R) : Prop where
  inv : ∀ q, Local.Inv 0 (s'.locals q)
  apart : ∀ q, q ≠ w → (s.locals q).Apart q (s'.locals q)
  room : Room w (s'.locals w) (s'.pc w)
  abort : s'.pc w ≠ .abort
  pc : ∀ v, v ≠ w → s'.pc v = s.pc v
  sched : s'.sched = s.sched
  dropped : s'.dropped = s.dropped
  issued : s'.issued = s.issued
  capacity : s'.queue.capacity = s.queue.capacity
  total : ∀ r, s'.total r = s.total r

section Kept
variable [DecidableEq R]

/-- The worker goes on in the same call. -/
theorem Base.kept (hb : Base w s u) (hr : Room w (u.locals w) (s.pc w)) (ha : s.pc w ≠ .abort)
    (ht : ∀ r, u.total r = s.total r) : Kept w s u where
  inv := hb.inv
  apart := hb.apart
  room := by rw [hb.pc]; exact hr
  abort := by rw [hb.pc]; exact ha
  pc _ _ := by rw [hb.pc]
  sched := hb.sched
  dropped := hb.dropped
  issued := hb.issued
  capacity := hb.capacity
  total := ht

theorem Base.goto (hb : Base w s u) {p : Pc n R} (hr : Room w (u.locals w) p) (ha : p ≠ .abort)
    (ht : ∀ r, u.total r + p.hand.count r = s.total r + (s.pc w).hand.count r) :
    Kept w s (u.goto w p) where
  inv := hb.inv
  apart := hb.apart
  room := by simpa [Exec.goto] using hr
  abort := by simpa [Exec.goto] using ha
  pc v hv := by simp [Exec.goto, hv, hb.pc]
  sched := hb.sched
  dropped := hb.dropped
  issued := hb.issued
  capacity := hb.capacity
  total r := by
    have h1 := u.total_goto w p r
    have h2 := ht r
    rw [hb.pc] at h1
    omega

theorem Base.found (hb : Base w s u) {x : R} (hr : (u.locals w).counting w = .idle)
    (ht : ∀ r, u.total r + [x].count r = s.total r + (s.pc w).hand.count r) :
    Kept w s (u.found w x) where
  inv := hb.inv
  apart := hb.apart
  room := by simpa [Exec.found, Room] using hr
  abort := by simp [Exec.found]
  pc v hv := by simp [Exec.found, hv, hb.pc]
  sched := hb.sched
  dropped := hb.dropped
  issued := hb.issued
  capacity := hb.capacity
  total r := by
    have h1 := u.total_found w x r
    have h2 := ht r
    rw [hb.pc] at h1
    omega

theorem Base.resume (hb : Base w s u) {k : Cont R} (hr : (u.locals w).counting w = .idle)
    (ht : ∀ r, u.total r + k.hand.count r = s.total r + (s.pc w).hand.count r) :
    Kept w s (u.resume w k) := by
  cases k with
  | found x => exact hb.found hr ht
  | shard iter => exact hb.goto hr (by simp) ht
  | ticked x => exact hb.goto hr (by simp) ht

/-- A `pop` in progress, or one that has returned. -/
theorem popLocal_base (hinv : ∀ q, Local.Inv 0 (s.locals q)) (hf : ∀ q, (s.locals q).Fresh)
    {q : Fin n} {l : Local (Fin n) R} {res : Option (PopRes R)}
    (hl : (s.locals q).popNext w = some (l, res)) :
    Base w s (s.setLocal q l) ∧
      ((s.setLocal q l).locals w).counting w = (s.locals w).counting w ∧
      ∀ r, (s.setLocal q l).total r + (res.elim [] fun v => (PopPc.ret v).value).count r =
        s.total r := by
  refine ⟨.setLocal hinv ((hinv q).popNext (hf q) hl) fun hq => Local.apart_popNext hq.symm hl, ?_,
    fun r => ?_⟩
  · by_cases hqw : w = q
    · subst hqw; simp [setLocal, Local.popNext_counting hl]
    · simp [setLocal, hqw]
  · have h1 := s.total_setLocal q l r
    have h2 := Local.popNext_load (hinv q) (hf q) hl r
    omega

/-- A `len` in progress, or one that has returned. -/
theorem lenLocal_base (hinv : ∀ q, Local.Inv 0 (s.locals q)) {q : Fin n} {l : Local (Fin n) R}
    {res : Option ℕ} (hl : (s.locals q).lenNext w = some (l, res)) :
    Base w s (s.setLocal q l) ∧ ∀ r, (s.setLocal q l).total r = s.total r := by
  refine ⟨.setLocal hinv ((hinv q).lenNext hl) fun hq => Local.apart_lenNext hq.symm hl,
    fun r => ?_⟩
  have h1 := s.total_setLocal q l r
  have h2 := Local.lenNext_load hl r
  omega

/-- A `push` by its owner in progress, or one that has returned. -/
theorem pushLocal_base (hinv : ∀ q, Local.Inv 0 (s.locals q)) {l : Local (Fin n) R}
    {res : Option (PushRes R)} (hl : (s.locals w).pushNext = some (l, res)) :
    Base w s (s.setLocal w l) ∧
      ∀ r, (s.setLocal w l).total r + (res.elim [] fun v => (PushPc.ret v).value).count r =
        s.total r := by
  refine ⟨.setLocal hinv ((hinv w).pushNext hl) fun hw => absurd rfl hw, fun r => ?_⟩
  have h1 := s.total_setLocal w l r
  have h2 := Local.pushNext_load (hinv w) hl r
  omega

theorem pushCall_base (hinv : ∀ q, Local.Inv 0 (s.locals q)) {l : Local (Fin n) R} {t : R}
    (hl : (s.locals w).pushCall t = some l) :
    Base w s (s.setLocal w l) ∧ ∀ r, (s.setLocal w l).total r = s.total r + [t].count r := by
  refine ⟨.setLocal hinv ((hinv w).pushCall hl) fun hw => absurd rfl hw, fun r => ?_⟩
  have h1 := s.total_setLocal w l r
  have h2 := Local.pushCall_load hl r
  omega

theorem kept_stealCount (hb : Base w s u) {src : Src n} {k : Cont R} {length : ℕ}
    (hp : s.pc w = .steal src .length k) (hsrc : src ≠ .shard w)
    (hidle : (u.locals w).counting w = .idle) (hlen : length ≠ 2 ^ 64 - 1)
    (ht : ∀ r, u.total r = s.total r) : Kept w s (u.stealCount w src k length) := by
  have hhand : (s.pc w).hand = k.hand := by rw [hp]; exact List.append_nil _
  unfold stealCount
  rw [if_neg hlen]
  split_ifs
  · refine hb.goto ⟨hsrc, ?_⟩ (by simp) fun r => ?_
    · show Local.LenNow _ ((u.locals w).counting w)
      rw [hidle]; trivial
    · rw [ht, hhand]; simp [Pc.hand, StealPc.hand]
  · refine hb.resume hidle fun r => ?_
    rw [ht, hhand]

section Steal
variable {src : Src n} {k : Cont R} (hinv : ∀ q, Local.Inv 0 (s.locals q))
include hinv

theorem kept_length (hlen : s.queue.queue.length < 2 ^ 64 - 1)
    (hp : s.pc w = .steal src .length k) (hr : Room w (s.locals w) (.steal src .length k))
    (hs : s.steal w src k .length = some s') : Kept w s s' := by
  have hsrc : src ≠ .shard w := hr.1
  have hidle : (s.locals w).counting w = .idle := hr.2
  cases src with
  | global =>
    cases hs
    refine kept_stealCount (.rfl hinv) hp hsrc hidle ?_ fun _ => rfl
    rw [Queue.len, s.queue.length_eq]; omega
  | shard q =>
    have hq : w ≠ q := fun he => hsrc (by rw [he])
    have hw : ∀ l, ((s.setLocal q l).locals w).counting w = .idle := by
      intro l; simpa [setLocal, hq] using hidle
    simp only [steal] at hs
    obtain ⟨l, ⟨hl, rfl⟩ | ⟨length, hl, rfl⟩⟩ := lenLocal_cases hs
    · obtain ⟨hb, ht⟩ := lenLocal_base hinv hl
      refine hb.kept ?_ (by rw [hp]; simp) ht
      rw [hp]; exact ⟨hsrc, hw l⟩
    · obtain ⟨hb, ht⟩ := lenLocal_base hinv hl
      refine kept_stealCount hb hp hsrc (hw l) ?_ ht
      have := Local.lenNext_le (hinv q) hl
      have := (hinv q).capacity_le
      omega

/-- `capacity() - len()` does not underflow, and this much room stays. -/
theorem kept_room {count : ℕ} (hp : s.pc w = .steal src (.room count) k)
    (hr : Room w (s.locals w) (.steal src (.room count) k))
    (hs : s.steal w src k (.room count) = some s') : Kept w s s' := by
  have hsrc : src ≠ .shard w := hr.1
  have hnow : (s.locals w).LenNow ((s.locals w).counting w) := hr.2
  have hw : ∀ l, (s.setLocal w l).locals w = l := fun l => setLocal_self s w l
  simp only [steal] at hs
  obtain ⟨l, ⟨hl, rfl⟩ | ⟨length, hl, rfl⟩⟩ := lenLocal_cases hs
  · obtain ⟨hb, ht⟩ := lenLocal_base hinv hl
    refine hb.kept ?_ (by rw [hp]; simp) ht
    rw [hp, hw]
    exact ⟨hsrc, (Local.lenNext_now (hinv w) hl hnow).1 rfl⟩
  · obtain ⟨hb, ht⟩ := lenLocal_base hinv hl
    obtain ⟨hidle, hle, hfit⟩ := (Local.lenNext_now (hinv w) hl hnow).2 length rfl
    rw [hw, if_pos hle]
    refine hb.goto ?_ (by simp) fun r => ?_
    · rw [hw]
      refine ⟨hsrc, hidle, ?_⟩
      have := Nat.min_le_right count (l.capacity - length)
      omega
    · rw [ht, hp]; rfl

theorem kept_take (hf : ∀ q, (s.locals q).Fresh) {left : ℕ}
    (hp : s.pc w = .steal src (.take left) k)
    (hr : Room w (s.locals w) (.steal src (.take left) k))
    (hs : s.steal w src k (.take left) = some s') : Kept w s s' := by
  obtain ⟨hsrc, hidle, hfit⟩ : src ≠ .shard w ∧ (s.locals w).counting w = .idle ∧
    (s.locals w).pushed.length + left ≤ (s.locals w).popped.length + (s.locals w).capacity := hr
  have hhand : (s.pc w).hand = k.hand := by rw [hp]; exact List.append_nil _
  cases left with
  | zero =>
    cases hs
    exact (Base.rfl hinv).resume hidle fun r => by rw [hhand]
  | succ left =>
    cases src with
    | global =>
      simp only [steal] at hs
      split at hs <;> cases hs
      · exact (Base.rfl hinv).resume hidle fun r => by rw [hhand]
      next t queue hq =>
        obtain ⟨hq1, hq2⟩ := Queue.pop_some hq
        refine (Base.queue hinv hq2).goto ⟨hsrc, hidle, hfit⟩ (by simp) fun r => ?_
        have := s.total_queue queue r
        rw [hq1, List.count_cons] at this
        rw [hhand]
        simp only [Pc.hand, StealPc.hand, List.count_append, List.count_cons, List.count_nil]
        omega
    | shard q =>
      have hq : w ≠ q := fun he => hsrc (by rw [he])
      have hw : ∀ l, (s.setLocal q l).locals w = s.locals w := by intro l; simp [setLocal, hq]
      simp only [steal] at hs
      obtain ⟨l, ⟨hl, rfl⟩ | ⟨res, hl, rfl⟩⟩ := popLocal_cases hs
      · obtain ⟨hb, -, ht⟩ := popLocal_base hinv hf hl
        refine hb.kept ?_ (by rw [hp]; simp) ht
        rw [hp, hw]; exact ⟨hsrc, hidle, hfit⟩
      · obtain ⟨hb, -, ht⟩ := popLocal_base hinv hf hl
        rcases res with (_ | t) | _
        · cases Local.popNext_ok (hinv q) hl
        · refine hb.goto ?_ (by simp) fun r => ?_
          · rw [hw]; exact ⟨hsrc, hidle, hfit⟩
          · have := ht r
            simp only [Option.elim_some, PopPc.value] at this
            rw [hhand]
            simp only [Pc.hand, StealPc.hand, List.count_append]
            omega
        · refine hb.resume (by rw [hw]; exact hidle) fun r => ?_
          have := ht r
          simp only [Option.elim_some, PopPc.value, List.count_nil] at this
          rw [hhand]; omega

theorem kept_push {left : ℕ} {t : R} (hp : s.pc w = .steal src (.push left t) k)
    (hr : Room w (s.locals w) (.steal src (.push left t) k))
    (hs : s.steal w src k (.push left t) = some s') : Kept w s s' := by
  obtain ⟨hsrc, hidle, hfit⟩ : src ≠ .shard w ∧ (s.locals w).counting w = .idle ∧
    (s.locals w).pushed.length + left + 1 ≤
      (s.locals w).popped.length + (s.locals w).capacity := hr
  obtain ⟨l, hl, rfl⟩ := Option.map_eq_some_iff.1 hs
  obtain ⟨hb, ht⟩ := pushCall_base hinv hl
  obtain ⟨hroom, hcount⟩ := Local.pushCall_room (hinv w) hl hfit
  refine hb.goto ?_ (by simp) fun r => ?_
  · rw [setLocal_self]
    exact ⟨hsrc, by rw [hcount]; exact hidle, hroom⟩
  · rw [ht, hp]
    simp only [Pc.hand, StealPc.hand, List.count_append, List.count_nil]
    omega

/-- `let _ = self.push(t)` drops nothing. -/
theorem kept_pushing {left : ℕ} (hp : s.pc w = .steal src (.pushing left) k)
    (hr : Room w (s.locals w) (.steal src (.pushing left) k))
    (hs : s.steal w src k (.pushing left) = some s') : Kept w s s' := by
  obtain ⟨hsrc, hidle, hroom⟩ : src ≠ .shard w ∧ (s.locals w).counting w = .idle ∧
    (s.locals w).PushRoom left (s.locals w).pushing := hr
  have hw : ∀ l, (s.setLocal w l).locals w = l := fun l => setLocal_self s w l
  simp only [steal] at hs
  obtain ⟨l, ⟨hl, rfl⟩ | ⟨res, hl, rfl⟩⟩ := pushLocal_cases hs
  · obtain ⟨hb, ht⟩ := pushLocal_base hinv hl
    obtain ⟨hcount, hin, -⟩ := Local.pushNext_room (hinv w) hl hroom
    refine hb.kept ?_ (by rw [hp]; simp) ht
    rw [hp, hw]
    exact ⟨hsrc, by rw [hcount]; exact hidle, hin rfl⟩
  · obtain ⟨hb, ht⟩ := pushLocal_base hinv hl
    obtain ⟨hcount, -, hout⟩ := Local.pushNext_room (hinv w) hl hroom
    obtain ⟨rfl, hfit⟩ := hout res rfl
    refine hb.goto ?_ (by simp) fun r => ?_
    · rw [hw]
      exact ⟨hsrc, by rw [hcount]; exact hidle, hfit⟩
    · have := ht r
      simp only [Option.elim_some, PushPc.value, List.count_nil] at this
      rw [hp]
      simp only [Pc.hand, StealPc.hand, List.append_nil]
      omega

/-- The steps of `steal` keep every runnable: there is room for what it takes. -/
theorem kept_steal (hf : ∀ q, (s.locals q).Fresh) (hlen : s.queue.queue.length < 2 ^ 64 - 1)
    {st : StealPc R} (hp : s.pc w = .steal src st k)
    (hr : Room w (s.locals w) (.steal src st k)) (hs : s.steal w src k st = some s') :
    Kept w s s' := by
  cases st with
  | length => exact kept_length hinv hlen hp hr hs
  | room count => exact kept_room hinv hp hr hs
  | take left => exact kept_take hinv hf hp hr hs
  | push left t => exact kept_push hinv hp hr hs
  | pushing left => exact kept_pushing hinv hp hr hs

end Steal

/-- A step on the sleepers only. -/
theorem Kept.act (hinv : ∀ q, Local.Inv 0 (s.locals q)) {wake : Wake (Fin n × ℕ) (Thread n m)}
    {p : Pc n R} (hr : Room w (s.locals w) p) (ha : p ≠ .abort)
    (hh : p.hand = (s.pc w).hand) : Kept w s ({ s with wake := wake }.goto w p) := by
  have hb : Base w s { s with wake := wake } := { Base.rfl hinv with }
  exact hb.goto hr ha fun r => by rw [hh]; rfl

/-- The steps of a worker inside a poll. -/
theorem kept_work (hinv : ∀ q, Local.Inv 0 (s.locals q)) (hf : ∀ q, (s.locals q).Fresh)
    (hlen : s.queue.queue.length < 2 ^ 64 - 1) (hr : Room w (s.locals w) (s.pc w))
    (hs : s.work w = some s') : Kept w s s' := by
  unfold work at hs
  split at hs
  next rest hp =>
    rw [hp] at hr
    have hidle : (s.locals w).counting w = .idle := hr
    obtain ⟨l, ⟨hl, rfl⟩ | ⟨res, hl, rfl⟩⟩ := popLocal_cases hs
    · obtain ⟨hb, hc, ht⟩ := popLocal_base hinv hf hl
      refine hb.kept ?_ (by rw [hp]; simp) ht
      rw [hp]; exact hc.trans hidle
    · obtain ⟨hb, hc, ht⟩ := popLocal_base hinv hf hl
      match res, hl, ht with
      | .ok (some t), _, ht =>
        refine hb.found (hc.trans hidle) fun r => ?_
        rw [hp]; exact ht r
      | .ok none, hl, _ => cases Local.popNext_ok (hinv w) hl
      | .errorEmpty, _, ht =>
        dsimp only
        split
        · refine hb.goto (hc.trans hidle) (by simp) fun r => ?_
          rw [hp]; exact ht r
        · refine hb.goto (hc.trans hidle) (by simp) fun r => ?_
          rw [hp]; exact ht r
  next hp =>
    rw [hp] at hr
    split at hs <;> cases hs
    · exact (Base.rfl hinv).goto hr (by simp) fun r => by rw [hp]; rfl
    next t queue hq =>
      obtain ⟨hq1, hq2⟩ := Queue.pop_some hq
      refine (Base.queue hinv hq2).goto ⟨by simp, hr⟩ (by simp) fun r => ?_
      have := s.total_queue queue r
      rw [hq1, List.count_cons] at this
      rw [hp]
      simp only [Pc.hand, StealPc.hand, Cont.hand, List.append_nil, List.count_cons, List.count_nil]
      omega
  next iter hp =>
    cases hs
    rw [hp] at hr
    rcases s.nextShard_cases w iter with hn | ⟨it, hn⟩ | ⟨q, it, hq, hn⟩ <;> rw [hn]
    · exact (Base.rfl hinv).goto hr (by simp) fun r => by rw [hp]; rfl
    · exact (Base.rfl hinv).goto hr (by simp) fun r => by rw [hp]; rfl
    · exact (Base.rfl hinv).goto ⟨by simpa using hq, hr⟩ (by simp) fun r => by rw [hp]; rfl
  next src st k hp =>
    rw [hp] at hr
    exact kept_steal hinv hf hlen hp hr hs
  next hp => cases hs; rw [hp] at hr; exact .act hinv hr (by simp) (by rw [hp]; rfl)
  next r hp =>
    cases hs
    rw [hp] at hr
    split_ifs
    · exact .act hinv hr (by simp) (by rw [hp]; rfl)
    · exact .act hinv hr (by simp) (by rw [hp]; rfl)
  next r hp => cases hs; rw [hp] at hr; exact .act hinv hr (by simp) (by rw [hp]; rfl)
  next r hp =>
    cases hs
    rw [hp] at hr
    split_ifs
    · exact .act hinv hr (by simp) (by rw [hp]; rfl)
    · exact .act hinv hr (by simp) (by rw [hp])
  next x hp =>
    cases hs
    rw [hp] at hr
    have hb : Base w s { s with ticks := Function.update s.ticks w (wrappingAdd (s.ticks w) 1) } :=
      { Base.rfl hinv with }
    split_ifs
    · exact hb.goto ⟨by simp, hr⟩ (by simp) fun r => by rw [hp]; rfl
    · exact hb.goto hr (by simp) fun r => by rw [hp]; rfl
  next hp => cases hs; rw [hp] at hr; exact .act hinv hr (by simp) (by rw [hp]; rfl)
  next hp =>
    cases hs
    rw [hp] at hr
    exact (Base.rfl hinv).goto hr (by simp) fun r => by rw [hp]; rfl
  all_goals cases hs

theorem kept_poll (hinv : ∀ q, Local.Inv 0 (s.locals q)) (hr : Room w (s.locals w) (s.pc w))
    (hs : s.poll w = some s') : Kept w s s' := by
  unfold poll at hs
  split at hs
  next hp _ =>
    cases hs
    rw [hp] at hr
    have hb : Base w s { s with
        stored := Function.update s.stored w (some ((s.stored w).getD (s.session w)))
        wake := s.wake.poll (s.ticker w) } := { Base.rfl hinv with }
    exact hb.goto hr (by simp) fun r => by rw [hp]; rfl
  next hp _ =>
    cases hs
    rw [hp] at hr
    exact .act hinv hr (by simp) (by rw [hp]; rfl)
  next => cases hs

theorem kept_start (hinv : ∀ q, Local.Inv 0 (s.locals q)) (hr : Room w (s.locals w) (s.pc w))
    {k : ℕ} (hs : s.start w k = some s') : Kept w s s' := by
  unfold start at hs
  split at hs
  next hp =>
    split_ifs at hs
    cases hs
    rw [hp] at hr
    exact (Base.rfl hinv).goto hr (by simp) fun r => by rw [hp]; rfl
  next => cases hs

theorem kept_finish (hinv : ∀ q, Local.Inv 0 (s.locals q)) (hr : Room w (s.locals w) (s.pc w))
    (hs : s.finish w = some s') : Kept w s s' := by
  unfold finish at hs
  split at hs
  next hp _ =>
    rw [hp] at hr
    have hb : ∀ k, Base w s { s with iter := Function.update s.iter w k } := by
      intro k; exact { Base.rfl hinv with }
    split_ifs at hs <;> cases hs
    · exact (hb _).goto hr (by simp) fun r => by rw [hp]; rfl
    · exact (hb _).goto hr (by simp) fun r => by rw [hp]; rfl
  next => cases hs

theorem kept_panic (hinv : ∀ q, Local.Inv 0 (s.locals q)) (hr : Room w (s.locals w) (s.pc w))
    (hs : s.panic w = some s') : Kept w s s' := by
  unfold panic at hs
  split at hs
  next hp _ =>
    cases hs
    rw [hp] at hr
    have hb : Base w s { s with
        session := Function.update s.session w (s.session w + 1)
        ticks := Function.update s.ticks w 0
        iter := Function.update s.iter w 0 } := { Base.rfl hinv with }
    exact hb.goto hr (by simp) fun r => by rw [hp]; rfl
  next => cases hs

end Kept

/-! ## Whole runs -/

section Runs
variable [DecidableEq R]

/-- No `pop` in flight has seen `2 ^ 63` others succeed, and the global queue holds
    fewer than `2 ^ 64 - 1` runnables. -/
def Sparse (s : Exec n m R) (_ : Act n m R) : Prop :=
  (∀ q, (s.locals q).Fresh) ∧ s.queue.queue.length < 2 ^ 64 - 1

instance (s : Exec n m R) (a : Act n m R) : Decidable (s.Sparse a) :=
  inferInstanceAs (Decidable ((∀ q, (s.locals q).Fresh) ∧ s.queue.queue.length < 2 ^ 64 - 1))

/-- Every runnable is accounted for, and nothing has failed. -/
structure Tidy (s : Exec n m R) : Prop where
  sync : Sync s
  inv : ∀ q, Local.Inv 0 (s.locals q)
  room : ∀ w, Room w (s.locals w) (s.pc w)
  abort : ∀ w, s.pc w ≠ .abort
  sched : ∀ t, s.sched t ≠ .abort
  dropped : s.dropped = []
  capacity : s.queue.capacity = 2 ^ 64 - 1
  nodup : s.issued.Nodup
  total : ∀ r, s.total r = s.issued.count r

theorem tidy_new : Tidy (new : Exec n m R) where
  sync := sync_new
  inv _ := Local.inv_new (by norm_num) 0
  room _ := rfl
  abort _ := by simp [new]
  sched _ := by simp [new]
  dropped := rfl
  capacity := rfl
  nodup := List.nodup_nil
  total r := by
    simp [total, new, Queue.unbound, Queue.bound, Local.load, Local.items, Local.new, PushPc.value,
      PopPc.value, Pc.hand, Sched.hand]

namespace Tidy

/-- A step of a worker. -/
theorem worker (h : Tidy s) (hsync : Sync s') (hk : Kept w s s') : Tidy s' where
  sync := hsync
  inv := hk.inv
  room v := by
    by_cases hv : v = w
    · subst hv; exact hk.room
    · rw [hk.pc v hv]; exact (h.room v).apart (hk.apart v hv)
  abort v := by
    by_cases hv : v = w
    · subst hv; exact hk.abort
    · rw [hk.pc v hv]; exact h.abort v
  sched := by rw [hk.sched]; exact h.sched
  dropped := hk.dropped.trans h.dropped
  capacity := hk.capacity.trans h.capacity
  nodup := by rw [hk.issued]; exact h.nodup
  total r := by rw [hk.total, hk.issued]; exact h.total r

/-- A step of a call of `schedule` that does not touch the local queues. -/
theorem thread (h : Tidy s) {t : Thread n m} {p : Sched R} (hsync : Sync (u.setSched t p))
    (hlocals : u.locals = s.locals) (hpc : u.pc = s.pc) (hsched : u.sched = s.sched)
    (hdropped : u.dropped = s.dropped) (hissued : u.issued = s.issued)
    (hcapacity : u.queue.capacity = s.queue.capacity) (hp : p ≠ .abort)
    (ht : ∀ r, u.total r + p.hand.count r = s.total r + (s.sched t).hand.count r) :
    Tidy (u.setSched t p) where
  sync := hsync
  inv := by show ∀ q, Local.Inv 0 (u.locals q); rw [hlocals]; exact h.inv
  room := by
    show ∀ w, Room w (u.locals w) (u.pc w)
    rw [hlocals, hpc]; exact h.room
  abort := by show ∀ w, u.pc w ≠ .abort; rw [hpc]; exact h.abort
  sched t' := by
    by_cases htt : t' = t
    · subst htt; simpa [setSched] using hp
    · simpa [setSched, htt, hsched] using h.sched t'
  dropped := hdropped.trans h.dropped
  capacity := hcapacity.trans h.capacity
  nodup := by show u.issued.Nodup; rw [hissued]; exact h.nodup
  total r := by
    have h1 := u.total_setSched t p r
    have h2 := ht r
    have h3 := h.total r
    rw [hsched] at h1
    show _ = u.issued.count r
    rw [hissued]; omega

/-- A worker's own queue may change in a call of `schedule`: the worker is not in
    `steal` then. -/
theorem setLocal (h : Tidy s) (hne : s.sched (.inl w) ≠ .idle) {l : Local (Fin n) R}
    (hb : Base w s (s.setLocal w l)) (hc : l.counting = (s.locals w).counting) (v : Fin n) :
    Room v ((s.setLocal w l).locals v) ((s.setLocal w l).pc v) := by
  by_cases hv : v = w
  · subst hv
    have hl : (s.setLocal v l).locals v = l := by simp [Exec.setLocal]
    have hr := h.room v
    rw [hl]
    show Room v l (s.pc v)
    have hq := h.sync.quiet v hne
    cases hp : s.pc v <;> rw [hp] at hr hq <;> simp only [Pc.phase, reduceCtorEq, or_self] at hq <;>
      exact (congrFun hc v).trans hr
  · exact (h.room v).apart (hb.apart v hv)

theorem schedLocal (h : Tidy s) (hne : s.sched (.inl w) ≠ .idle) {l : Local (Fin n) R}
    {p : Sched R} (hsync : Sync ((s.setLocal w l).setSched (.inl w) p))
    (hb : Base w s (s.setLocal w l)) (hc : l.counting = (s.locals w).counting) (hp : p ≠ .abort)
    (ht : ∀ r, (s.setLocal w l).total r + p.hand.count r =
      s.total r + (s.sched (.inl w)).hand.count r) :
    Tidy ((s.setLocal w l).setSched (.inl w) p) where
  sync := hsync
  inv := hb.inv
  room := h.setLocal hne hb hc
  abort := h.abort
  sched t := by
    by_cases htt : t = .inl w
    · subst htt; simpa [setSched] using hp
    · simpa [setSched, Exec.setLocal, htt] using h.sched t
  dropped := h.dropped
  capacity := h.capacity
  nodup := h.nodup
  total r := by
    have h1 := (s.setLocal w l).total_setSched (.inl w) p r
    have h2 := ht r
    have h3 := h.total r
    have h4 : (s.setLocal w l).sched = s.sched := rfl
    rw [h4] at h1
    show _ = s.issued.count r
    omega

theorem schedStep (h : Tidy s) (hlen : s.queue.queue.length < 2 ^ 64 - 1) {t : Thread n m}
    (hs : s.schedStep t = some s') : Tidy s' := by
  have hsync := h.sync.sched hs
  unfold Exec.schedStep at hs
  split at hs
  next x w hp =>
    split at hs
    · obtain ⟨l, hl, rfl⟩ := Option.map_eq_some_iff.1 hs
      obtain ⟨hb, ht⟩ := pushCall_base h.inv hl
      refine h.schedLocal (by rw [hp]; simp) hsync hb (Local.pushCall_counting hl) (by simp) fun r => ?_
      rw [ht, hp]; rfl
    · cases hs
      exact h.thread hsync rfl rfl rfl rfl rfl rfl (by simp) fun r => by rw [hp]; rfl
  next x j hp =>
    cases hs
    exact h.thread hsync rfl rfl rfl rfl rfl rfl (by simp) fun r => by rw [hp]; rfl
  next w hp =>
    obtain ⟨l, ⟨hl, rfl⟩ | ⟨res, hl, rfl⟩⟩ := pushLocal_cases hs
    · obtain ⟨hb, ht⟩ := pushLocal_base h.inv hl
      exact {
        sync := hsync
        inv := hb.inv
        room := h.setLocal (by rw [hp]; simp) hb (Local.pushNext_counting hl)
        abort := h.abort
        sched := h.sched
        dropped := h.dropped
        capacity := h.capacity
        nodup := h.nodup
        total := fun r => (ht r).trans (h.total r) }
    · obtain ⟨hb, ht⟩ := pushLocal_base h.inv hl
      have hne : s.sched (.inl w) ≠ .idle := by rw [hp]; simp
      cases res with
      | ok =>
        refine h.schedLocal hne hsync hb (Local.pushNext_counting hl) (by simp) fun r => ?_
        rw [hp]; exact ht r
      | errorFull x =>
        refine h.schedLocal hne hsync hb (Local.pushNext_counting hl) (by simp) fun r => ?_
        rw [hp]; exact ht r
  next w hp =>
    obtain ⟨k, -, rfl⟩ := Option.map_eq_some_iff.1 hs
    exact h.thread hsync rfl rfl rfl rfl rfl rfl (by simp) fun r => by rw [hp]; rfl
  next x hp =>
    split at hs
    next queue hq =>
      cases hs
      obtain ⟨hq1, hq2⟩ := Queue.push_some hq
      refine h.thread hsync rfl rfl rfl rfl rfl hq2 (by simp) fun r => ?_
      have := s.total_queue queue r
      rw [hq1, List.count_append] at this
      rw [hp]
      simp only [Sched.hand, List.count_nil]
      omega
    next hq =>
      -- the queue would be full
      have := Queue.push_none hq
      have := h.capacity
      omega
  next hp =>
    cases hs
    refine h.thread hsync rfl rfl rfl rfl rfl rfl ?_ fun r => ?_
    · split_ifs <;> simp
    · rw [hp]; split_ifs <;> rfl
  next => cases hs

theorem schedule (h : Tidy s) {t : Thread n m} {x : R} (hs : s.schedule t x = some s') :
    Tidy s' := by
  have hsync := h.sync.schedule hs
  unfold Exec.schedule at hs
  split at hs
  next hid =>
    split_ifs at hs with hf
    cases hs
    refine { h with sync := hsync, sched := fun t' => ?_, nodup := ?_, total := fun r => ?_ }
    · by_cases htt : t' = t
      · subst htt; simp [setSched]
      · simpa [setSched, htt] using h.sched t'
    · exact List.nodup_append.2 ⟨h.nodup, List.nodup_singleton _, fun a ha b hb hab => by
        rw [List.mem_singleton.1 hb] at hab; subst hab; exact hf.1 ha⟩
    · have h1 := { s with issued := s.issued ++ [x] }.total_setSched t (.enter x) r
      have h2 := h.total r
      have h3 : { s with issued := s.issued ++ [x] }.total r = s.total r := rfl
      rw [h3, hid] at h1
      simp only [Sched.hand, List.count_nil] at h1
      show _ = (s.issued ++ [x]).count r
      rw [List.count_append]; omega
  next => cases hs

theorem step (h : Tidy s) {a : Act n m R} (hc : s.Sparse a) (hs : s.step a = some s') :
    Tidy s' := by
  have hsync := h.sync.step hs
  cases a with
  | poll w => exact h.worker hsync (kept_poll h.inv (h.room w) hs)
  | work w => exact h.worker hsync (kept_work h.inv hc.1 hc.2 (h.room w) hs)
  | start w k => exact h.worker hsync (kept_start h.inv (h.room w) hs)
  | finish w => exact h.worker hsync (kept_finish h.inv (h.room w) hs)
  | panic w => exact h.worker hsync (kept_panic h.inv (h.room w) hs)
  | schedule t r => exact h.schedule hs
  | sched t => exact h.schedStep hc.2 hs

end Tidy

theorem tidy_reach (h : (system : Lts (Exec n m R) (Act n m R)).Reach Sparse s) : Tidy s := by
  refine h.inv (P := Tidy) ?_ ?_
  · rintro _ rfl; exact tidy_new
  · intro s a s' _ ht hc hs; exact ht.step hc hs

end Runs

end Exec

/-! ## Conservation -/

/-- The places where a runnable can be. -/
inductive Place (n m : ℕ) where
  | global
  | shard (q : Fin n)
  /-- in the hands of a thread inside `search`, `steal` or `schedule` -/
  | hand (t : Thread n m)
  | returned
  deriving DecidableEq

namespace Place

/-- The places, as a sum type. -/
def equiv : Place n m ≃ Unit ⊕ Fin n ⊕ Thread n m ⊕ Unit where
  toFun
    | .global => .inl ()
    | .shard q => .inr (.inl q)
    | .hand t => .inr (.inr (.inl t))
    | .returned => .inr (.inr (.inr ()))
  invFun
    | .inl () => .global
    | .inr (.inl q) => .shard q
    | .inr (.inr (.inl t)) => .hand t
    | .inr (.inr (.inr ())) => .returned
  left_inv p := by cases p <;> rfl
  right_inv p := by rcases p with _ | _ | _ | _ <;> rfl

instance : Fintype (Place n m) := Fintype.ofEquiv _ equiv.symm

theorem sum_eq (f : Place n m → ℕ) :
    ∑ p, f p = f .global + (∑ q, f (.shard q) + (∑ t, f (.hand t) + f .returned)) := by
  rw [← equiv.symm.sum_comp]
  simp [Fintype.sum_sum_type, equiv]

end Place

namespace Exec

variable {s : Exec n m R}

/-- The runnables at a place. -/
def contents (s : Exec n m R) : Place n m → List R
  | .global => s.queue.queue
  | .shard q => (s.locals q).items
  | .hand (.inl w) => (s.pc w).hand ++ ((s.sched (.inl w)).hand ++ ((s.locals w).pushing.value ++
      (List.finRange n).flatMap fun q => ((s.locals q).popping w).value))
  | .hand (.inr j) => (s.sched (.inr j)).hand
  | .returned => s.returned

section Runs
variable [DecidableEq R]

theorem sum_contents (s : Exec n m R) (r : R) :
    ∑ p, (s.contents p).count r + s.dropped.count r = s.total r := by
  have hload : ∑ q, (s.locals q).load r = ∑ q, (s.locals q).items.count r +
      ∑ w, (s.locals w).pushing.value.count r +
        ∑ w, ∑ q, ((s.locals q).popping w).value.count r := by
    rw [Finset.sum_comm (f := fun w q => ((s.locals q).popping w).value.count r),
      ← Finset.sum_add_distrib, ← Finset.sum_add_distrib]
    rfl
  have hflat : ∀ w, ((List.finRange n).flatMap fun q => ((s.locals q).popping w).value).count r =
      ∑ q, ((s.locals q).popping w).value.count r := by
    intro w
    rw [List.count_flatMap, Fin.sum_univ_def]
    rfl
  have hhand : ∑ t, (s.contents (.hand t)).count r = ∑ w, (s.pc w).hand.count r +
      ∑ t, (s.sched t).hand.count r + ∑ w, (s.locals w).pushing.value.count r +
        ∑ w, ∑ q, ((s.locals q).popping w).value.count r := by
    simp only [Fintype.sum_sum_type, contents, List.count_append, hflat, Finset.sum_add_distrib]
    omega
  rw [Place.sum_eq, hhand]
  simp only [contents, total, hload]
  omega

/-- **Conservation of tasks**: every runnable handed to `schedule` is in exactly one
    place, once, and nothing fails: `steal` finds room for what it takes, its
    subtraction does not underflow, and `schedule` finds room in the global queue. -/
theorem conservation (h : (system : Lts (Exec n m R) (Act n m R)).Reach Sparse s) :
    (∀ r ∈ s.issued, ∃! p, r ∈ s.contents p) ∧
    (∀ p, (s.contents p).Nodup) ∧ (∀ p, ∀ r ∈ s.contents p, r ∈ s.issued) ∧
    -- `let _ = self.push(t)` does not fail
    s.dropped = [] ∧
    (∀ w src left k t, s.pc w = .steal src (.pushing left) k →
      (s.locals w).pushing ≠ .ret (.errorFull t)) ∧
    -- `capacity() - len()` does not underflow
    (∀ q w length seen made now, (s.locals q).counting w = .ret length seen made now →
      length ≤ (s.locals q).capacity) ∧
    -- no worker and no call of `schedule` panics
    (∀ w, s.pc w ≠ .abort) ∧ (∀ t, s.sched t ≠ .abort) := by
  have ht := tidy_reach h
  have hsum : ∀ r, ∑ p, (s.contents p).count r = s.issued.count r := by
    intro r
    have := s.sum_contents r
    rw [ht.dropped, List.count_nil, ht.total r] at this
    omega
  refine ⟨fun r hr => ?_, ?_, fun p r hr => ?_, ht.dropped, ?_, ?_, ht.abort, ht.sched⟩
  · refine Ledger.existsUnique_of_sum ?_
    rw [hsum, List.count_eq_one_of_mem ht.nodup hr]
  · refine Ledger.nodup_of_sum fun r => ?_
    rw [hsum]
    exact List.nodup_iff_count_le_one.1 ht.nodup r
  · have hpos := List.count_pos_iff.2 hr
    have hle := Finset.single_le_sum (f := fun p => (s.contents p).count r)
      (fun _ _ => Nat.zero_le _) (Finset.mem_univ p)
    rw [hsum] at hle
    exact List.count_pos_iff.1 (hpos.trans_le hle)
  · intro w src left k t hp hfull
    have hr := ht.room w
    rw [hp] at hr
    have hroom : (s.locals w).PushRoom left (s.locals w).pushing := hr.2.2
    rw [hfull] at hroom
    exact hroom
  · intro q w length seen made now hc
    have hok := (ht.inv q).len w
    rw [hc] at hok
    exact hok.1

end Runs

/-- A thread schedules three tasks; a worker pops one and steals another. -/
def popAndSteal : List (Act 2 1 ℕ) :=
  [.schedule (.inr 0) 7, .sched (.inr 0), .sched (.inr 0), .sched (.inr 0), .sched (.inr 0),
    .schedule (.inr 0) 8, .sched (.inr 0), .sched (.inr 0), .sched (.inr 0),
    .schedule (.inr 0) 9, .sched (.inr 0), .sched (.inr 0), .sched (.inr 0),
    .poll 1, .work 1, .work 1, .work 1, .work 1, .work 1, .work 1, .work 1, .work 1, .work 1]

/-- In the middle of `steal`, the worker holds two tasks. -/
theorem conservation_stealing : ∃ s : Exec 2 1 ℕ,
    system.run new popAndSteal = some s ∧
      (s.issued = [7, 8, 9] ∧ s.contents .global = [9] ∧ s.contents (.hand (.inl 1)) = [7, 8]) ∧
      ∀ r ∈ s.issued, ∃! p, r ∈ s.contents p := by
  have hrun : ∃ s : Exec 2 1 ℕ, system.run new popAndSteal = some s ∧
      s.issued = [7, 8, 9] ∧ s.contents .global = [9] ∧ s.contents (.hand (.inl 1)) = [7, 8] :=
    Lts.exists_run (by decide +kernel)
  obtain ⟨s, hs, he⟩ := hrun
  have hm : system.Meets Sparse (new : Exec 2 1 ℕ) popAndSteal := by decide +kernel
  exact ⟨s, hs, he, (conservation (.run (.init rfl) hm hs)).1⟩

end Exec
end Awak
