/-
  `Ticker::search` of `executor.rs` as a program over the operations of the
  queues.

  Each call of `Local::pop`, `push` and `len` and of `Queue::pop` and `len` is
  one operation here; `Local.lean` and `Executor.lean` take these calls apart.
  A slot that was never written, an overflow and an underflow make the program
  panic.

  * `Local.Holds l xs`: the ring `l` holds the items `xs`; each operation on the
    ring is the one on the list (`pop_cons`, `push_room`, `len_eq`);
  * `Becomes s t c`: an operation leaves the contents `c` of the queues;
  * `exists_sound`: the queues can hold every contents that fits;
  * `steal_run`: what `steal` moves;
  * `search_complete`: run alone, `search` finds a task if there is one, and
    loses none.
-/
import Awak.Executor
import Awak.Lib.Ledger
import Awak.Lib.Prog

namespace Awak

open Word

variable {n : ℕ} {ι T R : Type}

/-! ## Whole calls of `Local` -/

namespace Local

/-- `pop`. -/
def pop (l : Local ι T) : PopRes T × Local ι T :=
  if l.head = l.tail then (.errorEmpty, l)
  else
    let value := l.buffer (l.head &&& l.mask)
    (.ok value, { l with head := wrappingAdd l.head 1, popped := l.popped ++ [value] })

/-- `push`. -/
def push (l : Local ι T) (value : T) : PushRes T × Local ι T :=
  if wrappingSub l.tail l.head < l.capacity then
    (.ok, { l with
      buffer := Function.update l.buffer (l.tail &&& l.mask) (some value)
      tail := wrappingAdd l.tail 1
      pushed := l.pushed ++ [value] })
  else (.errorFull value, l)

/-- `len`. -/
def len (l : Local ι T) : ℕ :=
  let length := wrappingSub l.tail l.head
  if length ≤ l.capacity then length else l.capacity

/-- The ring holds the items `xs`, and no push is in flight. -/
structure Holds (l : Local ι T) (xs : List T) : Prop where
  inv : ∃ start, Inv start l
  idle : l.pushing = .idle
  items : l.items = xs

namespace Holds
variable {l : Local ι T} {xs : List T}

theorem length_le (h : l.Holds xs) : xs.length ≤ l.capacity := by
  obtain ⟨start, hi⟩ := h.inv
  have := hi.items_length; have := hi.bound
  rw [← h.items]
  omega

theorem capacity_le (h : l.Holds xs) : l.capacity ≤ 2 ^ 63 := by
  obtain ⟨start, hi⟩ := h.inv
  exact hi.capacity_le

theorem capacity_pos (h : l.Holds xs) : 0 < l.capacity := by
  obtain ⟨start, hi⟩ := h.inv
  obtain ⟨k, -, hk, -⟩ := hi.ring
  rw [hk]
  exact Nat.two_pow_pos k

theorem distance (h : l.Holds xs) : wrappingSub l.tail l.head = xs.length := by
  obtain ⟨start, hi⟩ := h.inv
  rw [hi.distance, h.items]

theorem len_eq (h : l.Holds xs) : l.len = xs.length := by
  simp only [len, h.distance, if_pos h.length_le]

theorem head_eq_tail (h : l.Holds xs) : l.head = l.tail ↔ xs = [] := by
  obtain ⟨start, hi⟩ := h.inv
  have hl := hi.items_length; have := hi.bound; have := hi.capacity_le
  rw [h.items] at hl
  rw [hi.head, hi.tail, ← List.length_eq_zero_iff]
  constructor
  · intro he
    have := wrap_inj (a := start + l.pushed.length) (b := start + l.popped.length)
      (by omega) (by omega) he
    omega
  · intro he
    rw [show l.popped.length = l.pushed.length by omega]

theorem pop_nil (h : l.Holds []) : l.pop = (.errorEmpty, l) := if_pos (h.head_eq_tail.2 rfl)

theorem pop_cons {t : T} (h : l.Holds (t :: xs)) :
    l.pop.1 = .ok (some t) ∧ l.pop.2.Holds xs ∧ l.pop.2.capacity = l.capacity := by
  obtain ⟨start, hi⟩ := h.inv
  have hl := hi.items_length
  rw [h.items, List.length_cons] at hl
  have hlt : l.popped.length < l.pushed.length := by omega
  have hdrop : l.pushed.drop l.popped.length = t :: xs := h.items
  have ht : l.pushed[l.popped.length]? = some t := by
    rw [← List.head?_drop, hdrop, List.head?_cons]
  have hslot : l.buffer (l.head &&& l.mask) = l.pushed[l.popped.length]? := by
    rw [hi.head, hi.slot]
    exact hi.slots _ le_rfl hlt
  have hne : l.head ≠ l.tail := by
    rw [Ne, h.head_eq_tail]
    exact List.cons_ne_nil t xs
  simp only [pop, if_neg hne]
  refine ⟨by rw [hslot, ht], ⟨⟨start, hi.advance hslot hlt⟩, h.idle, ?_⟩, trivial⟩
  simp only [Local.items, List.length_append, List.length_singleton]
  rw [← List.tail_drop, hdrop, List.tail_cons]

theorem push_full (h : l.Holds xs) (hc : xs.length = l.capacity) (value : T) :
    l.push value = (.errorFull value, l) := by
  rw [push, h.distance, if_neg (by omega)]

theorem push_room (h : l.Holds xs) (hc : xs.length < l.capacity) (value : T) :
    (l.push value).1 = .ok ∧ (l.push value).2.Holds (xs ++ [value]) ∧
      (l.push value).2.capacity = l.capacity := by
  obtain ⟨start, hi⟩ := h.inv
  have hl := hi.items_length
  rw [h.items] at hl
  have hlt : l.pushed.length < l.popped.length + l.capacity := by omega
  have hslot : l.tail &&& l.mask = (start + l.pushed.length) % l.capacity := by
    rw [hi.tail, hi.slot]
  -- the ring after the write, before `tail` is stored
  have hw : Inv start { l with
      buffer := Function.update l.buffer (l.tail &&& l.mask) (some value) } :=
    { hi with
      slots := by rw [hslot]; exact hi.write_slots hlt value
      push := by simp only [h.idle]; trivial }
  have hv : Function.update l.buffer (l.tail &&& l.mask) (some value)
      ((start + l.pushed.length) % l.capacity) = some value := by
    rw [hslot, Function.update_self]
  have ha := hw.append hlt hv (Or.inl h.idle)
  simp only [push, h.distance, if_pos hc]
  refine ⟨trivial, ⟨⟨start, ha⟩, h.idle, ?_⟩, trivial⟩
  rw [← h.items]
  exact List.drop_append_of_le_length hi.le

end Holds

theorem push_head (l : Local ι T) (value : T) : (l.push value).2.head = l.head := by
  by_cases hc : wrappingSub l.tail l.head < l.capacity
  · simp only [push, if_pos hc]
  · simp only [push, if_neg hc]

/-- Every list that fits is the contents of a ring, with the counters at any place. -/
theorem exists_holds {n : ℕ} (hn : n ≤ 2 ^ 63) (start : ℕ) {xs : List T}
    (hxs : xs.length ≤ nextPowerOfTwo n) :
    ∃ l : Local ι T, l.capacity = nextPowerOfTwo n ∧ l.head = wrap start ∧ l.Holds xs := by
  induction xs using List.reverseRecOn with
  | nil => exact ⟨.new n start, rfl, rfl, ⟨⟨start, inv_new hn start⟩, rfl, rfl⟩⟩
  | append_singleton xs x ih =>
    rw [List.length_append, List.length_singleton] at hxs
    obtain ⟨l, hc, hh, hl⟩ := ih (by omega)
    obtain ⟨-, hpush, hcap⟩ := hl.push_room (by omega) x
    exact ⟨(l.push x).2, hcap.trans hc, (l.push_head x).trans hh, hpush⟩

end Local

/-! ## The queues -/

/-- The queues of the `State`, with the counter of one ticker.  `log` and `stolen`
    are history: the tasks that have been in the global queue, and the shards on
    which the ticker has called `steal`. -/
structure Queues (n : ℕ) (R : Type) where
  queue : Queue R
  locals : Fin n → Local (Fin n) R
  ticks : ℕ
  log : List R
  stolen : List (Fin n)

/-- The task that `search` returns, popped from the local queue or from the
    global one. -/
inductive Found (R : Type) where
  | own (r : R)
  | global (r : R)
  deriving DecidableEq

/-- The runnable that was found. -/
def Found.task : Found R → R
  | .own r | .global r => r

namespace Queues

/-- The local queue of `q` becomes `l`. -/
def setLocal (s : Queues n R) (q : Fin n) (l : Local (Fin n) R) : Queues n R :=
  { s with locals := Function.update s.locals q l }

/-- What is in a queue. -/
def items (s : Queues n R) : Src n → List R
  | .global => s.queue.queue
  | .shard q => (s.locals q).items

/-! ## The operations -/

/-- `pop().ok()` on a local queue. -/
def popLocal (q : Fin n) : Prog (Queues n R) (Option R) := do
  match ← Prog.atom fun s => ((s.locals q).pop.1, s.setLocal q (s.locals q).pop.2) with
  | .ok (some t) => return some t
  | .ok none => .panic
  | .errorEmpty => return none

/-- `push(t)` on the ticker's own queue. -/
def pushLocal (w : Fin n) (t : R) : Prog (Queues n R) (PushRes R) :=
  .atom fun s => (((s.locals w).push t).1, s.setLocal w ((s.locals w).push t).2)

/-- `LocalQueue::len`. -/
def lenLocal (q : Fin n) : Prog (Queues n R) ℕ := .atom fun s => ((s.locals q).len, s)

/-- `LocalQueue::capacity`. -/
def capacity (w : Fin n) : Prog (Queues n R) ℕ := .atom fun s => ((s.locals w).capacity, s)

/-- `state.queue.pop().ok()`. -/
def popGlobal : Prog (Queues n R) (Option R) :=
  .atom fun s =>
    match s.queue.pop with
    | none => (none, s)
    | some (t, queue) => (some t, { s with queue := queue })

/-- `Queue::len`. -/
def lenGlobal : Prog (Queues n R) ℕ := .atom fun s => (s.queue.len, s)

/-- `self.ticks.fetch_add(1)`. -/
def bump : Prog (Queues n R) ℕ := .atom fun s => (s.ticks, { s with ticks := wrappingAdd s.ticks 1 })

/-- The call of `steal` on a shard is recorded. -/
def record (q : Fin n) : Prog (Queues n R) Unit :=
  .atom fun s => ((), { s with stolen := s.stolen ++ [q] })

/-- `pop` on the queue that `steal` takes from. -/
def popFrom : Src n → Prog (Queues n R) (Option R)
  | .global => popGlobal
  | .shard q => popLocal q

/-! ## `steal` and `search` -/

/-- The loop of `steal`; `f` pops from the source. -/
def stealLoop (w : Fin n) (f : Prog (Queues n R) (Option R)) : ℕ → Prog (Queues n R) Unit
  | 0 => return
  | count + 1 => do
    match ← f with
    | some t =>
      let _ ← pushLocal w t
      stealLoop w f count
    | none => return

/-- `local_queue.local.steal(length, f)`.  The result is the number of free slots
    it has found, if it has looked for them. -/
def steal (w : Fin n) (length : ℕ) (f : Prog (Queues n R) (Option R)) :
    Prog (Queues n R) (Option ℕ) :=
  if length = 2 ^ 64 - 1 then .panic
  else
    let count := (length + 1) / 2
    if 0 < count then do
      let capacity ← capacity w
      let len ← lenLocal w
      if capacity < len then .panic
      else
        stealLoop w f (min count (capacity - len))
        return some (capacity - len)
    else return none

/-- `iter().chain(iter()).skip(start).take(n)`, without the ticker's own shard. -/
def rotate (shards : List (Fin n)) (w : Fin n) (start : ℕ) : List (Fin n) :=
  (((shards ++ shards).drop start).take shards.length).filter (· ≠ w)

/-- The loop over the other shards. -/
def searchShards (w : Fin n) : List (Fin n) → Prog (Queues n R) (Option R)
  | [] => return none
  | q :: rest => do
    record q
    let length ← lenLocal q
    let _ ← steal w length (popLocal q)
    match ← popLocal w with
    | some r => return some r
    | none => searchShards w rest

/-- `search` of the ticker `w`; `shards` is what `local_queue.iter()` yields and
    `start` the random number. -/
def search (shards : List (Fin n)) (w : Fin n) (start : ℕ) :
    Prog (Queues n R) (Option (Found R)) := do
  match ← popLocal w with
  | some r => return some (.own r)
  | none =>
    match ← popGlobal with
    | some r =>
      let length ← lenGlobal
      let _ ← steal w length popGlobal
      return some (.global r)
    | none =>
      match ← searchShards w (rotate shards w start) with
      | some r => return some (.own r)
      | none => return none

/-! ## What the operations leave -/

/-- The rings are well formed, and the global queue is `Queue::unbound`. -/
structure Sound (s : Queues n R) : Prop where
  locals : ∀ q, (s.locals q).Holds (s.locals q).items
  capacity : s.queue.capacity = 2 ^ 64 - 1

/-- Every contents that fits is the one of well formed queues. -/
theorem exists_sound {cap : Fin n → ℕ} (hcap : ∀ q, cap q ≤ 2 ^ 63) (start : Fin n → ℕ)
    {c : Src n → List R} (hglobal : (c .global).length ≤ 2 ^ 64 - 1)
    (hlocal : ∀ q, (c (.shard q)).length ≤ nextPowerOfTwo (cap q)) :
    ∃ s : Queues n R, s.Sound ∧ s.items = c ∧
      ∀ q, (s.locals q).capacity = nextPowerOfTwo (cap q) ∧ (s.locals q).head = wrap (start q) := by
  choose l hc hh hl using fun q =>
    Local.exists_holds (ι := Fin n) (hcap q) (start q) (hlocal q)
  refine ⟨⟨⟨c .global, _, 2 ^ 64 - 1, rfl, hglobal⟩, l, 0, [], []⟩, ⟨fun q => ?_, rfl⟩, ?_,
    fun q => ⟨hc q, hh q⟩⟩
  · exact (hl q).items.symm ▸ hl q
  · funext src
    cases src with
    | global => rfl
    | shard q => exact (hl q).items

/-- `t` comes from `s` with the contents `c` of the queues. -/
structure Becomes (s t : Queues n R) (c : Src n → List R) : Prop where
  sound : t.Sound
  items : t.items = c
  capacity : ∀ q, (t.locals q).capacity = (s.locals q).capacity
  stolen : t.stolen = s.stolen
  ticks : t.ticks = s.ticks
  log : t.log = s.log

variable {s t u : Queues n R} {c d : Src n → List R} {w : Fin n} {src : Src n}

theorem Becomes.rfl (hs : s.Sound) : Becomes s s s.items :=
  ⟨hs, by rfl, fun _ => by rfl, by rfl, by rfl, by rfl⟩

theorem Becomes.trans (h : Becomes s t c) (h' : Becomes t u d) : Becomes s u d where
  sound := h'.sound
  items := h'.items
  capacity q := (h'.capacity q).trans (h.capacity q)
  stolen := h'.stolen.trans h.stolen
  ticks := h'.ticks.trans h.ticks
  log := h'.log.trans h.log

theorem Sound.holds (hs : s.Sound) {q : Fin n} {xs : List R} (h : s.items (.shard q) = xs) :
    (s.locals q).Holds xs := by
  subst h
  exact hs.locals q

theorem Sound.setLocal (hs : s.Sound) {q : Fin n} {l : Local (Fin n) R} {xs : List R}
    (h : l.Holds xs) (hc : l.capacity = (s.locals q).capacity) :
    Becomes s (s.setLocal q l) (Function.update s.items (.shard q) xs) := by
  refine ⟨⟨fun q' => ?_, hs.capacity⟩, ?_, fun q' => ?_, by rfl, by rfl, by rfl⟩
  · by_cases he : q' = q
    · subst he
      simpa [Queues.setLocal, h.items] using h
    · simpa [Queues.setLocal, he] using hs.locals q'
  · ext1 src
    cases src with
    | global => rfl
    | shard q' =>
      by_cases he : q' = q
      · subst he
        simp [Queues.setLocal, Queues.items, h.items]
      · simp [Queues.setLocal, Queues.items, he]
  · by_cases he : q' = q
    · subst he
      simpa [Queues.setLocal] using hc
    · simp [Queues.setLocal, he]

theorem Sound.setQueue (hs : s.Sound) {queue : Queue R} (hc : queue.capacity = s.queue.capacity) :
    Becomes s { s with queue := queue } (Function.update s.items .global queue.queue) := by
  refine ⟨⟨hs.locals, hc.trans hs.capacity⟩, ?_, fun _ => by rfl, by rfl, by rfl, by rfl⟩
  ext1 src
  cases src with
  | global => rfl
  | shard q => rfl

theorem capacity_run (w : Fin n) (s : Queues n R) :
    (capacity w).run s = (some (s.locals w).capacity, s) := rfl

theorem lenLocal_run (q : Fin n) (s : Queues n R) :
    (lenLocal q).run s = (some (s.locals q).len, s) := rfl

theorem lenGlobal_run (s : Queues n R) : lenGlobal.run s = (some s.queue.len, s) := rfl

theorem record_run (q : Fin n) (s : Queues n R) :
    (record q).run s = (some (), { s with stolen := s.stolen ++ [q] }) := rfl

theorem popFrom_nil (src : Src n) (hs : s.Sound) (h : s.items src = []) :
    (popFrom src).run s = (some none, s) := by
  cases src with
  | global =>
    have hq : s.queue.pop = none := by
      cases hp : s.queue.pop with
      | none => rfl
      | some p => exact absurd ((Queue.pop_some hp).1.symm.trans h) (List.cons_ne_nil _ _)
    simp [popFrom, popGlobal, hq]
  | shard q =>
    have hp : (s.locals q).pop = (.errorEmpty, s.locals q) := (hs.holds h).pop_nil
    rw [popFrom, popLocal, Prog.run_bind (Prog.run_atom _ s), hp]
    simp [setLocal]

theorem popFrom_cons (src : Src n) (hs : s.Sound) {r : R} {xs : List R} (h : s.items src = r :: xs) :
    ∃ t, (popFrom src).run s = (some (some r), t) ∧
      Becomes s t (Function.update s.items src xs) := by
  cases src with
  | global =>
    cases hp : s.queue.pop with
    | none => exact absurd (h.symm.trans (Queue.pop_none hp)) (List.cons_ne_nil _ _)
    | some p =>
      obtain ⟨hq, hc⟩ := Queue.pop_some hp
      obtain ⟨rfl, rfl⟩ : r = p.1 ∧ xs = p.2.queue := List.cons.inj (h.symm.trans hq)
      exact ⟨{ s with queue := p.2 }, by simp [popFrom, popGlobal, hp], hs.setQueue hc⟩
  | shard q =>
    obtain ⟨hr, hl, hc⟩ := (hs.holds h).pop_cons
    refine ⟨s.setLocal q (s.locals q).pop.2, ?_, hs.setLocal hl hc⟩
    rw [popFrom, popLocal, Prog.run_bind (Prog.run_atom _ s), hr]
    rfl

theorem pushLocal_room (hs : s.Sound) (r : R)
    (h : (s.items (.shard w)).length < (s.locals w).capacity) :
    ∃ t, (pushLocal w r).run s = (some .ok, t) ∧
      Becomes s t (Function.update s.items (.shard w) (s.items (.shard w) ++ [r])) := by
  obtain ⟨hr, hl, hc⟩ := (hs.locals w).push_room h r
  refine ⟨s.setLocal w ((s.locals w).push r).2, ?_, hs.setLocal hl hc⟩
  rw [pushLocal, Prog.run_atom, hr]

/-- The contents after `k` tasks have moved from `src` to the queue of `w`. -/
def moved (c : Src n → List R) (src : Src n) (w : Fin n) (k : ℕ) : Src n → List R :=
  Function.update (Function.update c src ((c src).drop k)) (.shard w)
    (c (.shard w) ++ (c src).take k)

theorem moved_nil (h : c src = []) (k : ℕ) : moved c src w k = c := by
  rw [moved, h, List.drop_nil, List.take_nil, List.append_nil]
  rw [← h, Function.update_eq_self, Function.update_eq_self]

theorem moved_zero : moved c src w 0 = c := by
  rw [moved, List.drop_zero, List.take_zero, List.append_nil, Function.update_eq_self,
    Function.update_eq_self]

/-- One task moves, then the others. -/
theorem moved_succ (hne : src ≠ .shard w) {r : R} {xs : List R} (h : c src = r :: xs) (k : ℕ) :
    moved (Function.update (Function.update c src xs) (.shard w) (c (.shard w) ++ [r])) src w k =
      moved c src w (k + 1) := by
  ext1 q
  by_cases hw : q = .shard w
  · subst hw
    simp [moved, h, Function.update_of_ne hne]
  · by_cases hq : q = src
    · subst hq
      simp [moved, h, Function.update_of_ne hne]
    · simp [moved, Function.update_of_ne hw, Function.update_of_ne hq]

theorem stealLoop_run (hne : src ≠ .shard w) (count : ℕ) : ∀ {s : Queues n R}, s.Sound →
    (s.items (.shard w)).length + count ≤ (s.locals w).capacity →
    ∃ t, (stealLoop w (popFrom src) count).run s = (some (), t) ∧
      Becomes s t (moved s.items src w count) := by
  induction count with
  | zero =>
    intro s hs _
    refine ⟨s, rfl, ?_⟩
    rw [moved_zero]
    exact .rfl hs
  | succ count ih =>
    intro s hs hroom
    cases h : s.items src with
    | nil =>
      refine ⟨s, ?_, ?_⟩
      · rw [stealLoop, Prog.run_bind (popFrom_nil src hs h)]
        rfl
      · rw [moved_nil h]
        exact .rfl hs
    | cons r xs =>
      obtain ⟨s₁, hrun₁, h₁⟩ := popFrom_cons src hs h
      have hown : s₁.items (.shard w) = s.items (.shard w) := by
        rw [h₁.items, Function.update_of_ne hne.symm]
      obtain ⟨s₂, hrun₂, h₂⟩ := pushLocal_room h₁.sound r
        (by rw [hown, h₁.capacity]; omega : (s₁.items (.shard w)).length < _)
      have hlen : (s₂.items (.shard w)).length = (s.items (.shard w)).length + 1 := by
        rw [h₂.items, Function.update_self, hown, List.length_append, List.length_singleton]
      obtain ⟨t, hrun, ht⟩ := ih h₂.sound
        (by rw [hlen, h₂.capacity, h₁.capacity]; omega)
      refine ⟨t, ?_, ?_⟩
      · rw [stealLoop, Prog.run_bind hrun₁]
        exact (Prog.run_bind hrun₂).trans hrun
      · have := (h₁.trans h₂).trans ht
        rwa [h₂.items, h₁.items, Function.update_of_ne hne.symm, moved_succ hne h] at this

/-- **`steal`** moves half of `length`, rounded up, but no more than fits. -/
theorem steal_run (hs : s.Sound) (hne : src ≠ .shard w) (length : ℕ) (hl : length < 2 ^ 64 - 1) :
    ∃ free t, (steal w length (popFrom src)).run s = (some free, t) ∧
      Becomes s t (moved s.items src w (min ((length + 1) / 2)
        ((s.locals w).capacity - (s.items (.shard w)).length))) := by
  have hlen : (s.locals w).len = (s.items (.shard w)).length := (hs.locals w).len_eq
  have hle : (s.items (.shard w)).length ≤ (s.locals w).capacity := (hs.locals w).length_le
  unfold steal
  rw [if_neg (by omega)]
  by_cases hc : 0 < (length + 1) / 2
  · obtain ⟨t, hrun, ht⟩ := stealLoop_run hne (min ((length + 1) / 2)
      ((s.locals w).capacity - (s.items (.shard w)).length)) hs (by omega)
    refine ⟨some ((s.locals w).capacity - (s.items (.shard w)).length), t, ?_, ht⟩
    simp only [if_pos hc]
    rw [Prog.run_bind (capacity_run w s), Prog.run_bind (lenLocal_run w s)]
    simp only [hlen]
    rw [if_neg (by omega), Prog.run_bind hrun]
    rfl
  · refine ⟨none, s, ?_, ?_⟩
    · simp only [if_neg hc]
      rfl
    · rw [show (length + 1) / 2 = 0 by omega, Nat.zero_min, moved_zero]
      exact .rfl hs

/-! ## Conservation -/

/-- The tasks in the queues. -/
def tasks (c : Src n → List R) : Multiset R := ↑(c .global) + ∑ q, (↑(c (.shard q)) : Multiset R)

theorem tasks_update (c : Src n → List R) (src : Src n) (xs : List R) :
    tasks (Function.update c src xs) + ↑(c src) = tasks c + ↑xs := by
  cases src with
  | global =>
    simp only [tasks, Function.update_self]
    have hq : ∀ q : Fin n, Function.update c .global xs (.shard q) = c (.shard q) :=
      fun q => Function.update_of_ne (by simp) _ _
    simp only [hq]
    abel
  | shard q =>
    have hsum := Ledger.sum_update (fun l : List R => (↑l : Multiset R))
      (fun q => c (.shard q)) q xs
    have hq : ∀ q' : Fin n, Function.update c (.shard q) xs (.shard q') =
        Function.update (fun q => c (.shard q)) q xs q' := by
      intro q'
      by_cases he : q' = q
      · subst he; simp
      · simp [he]
    have hg : Function.update c (.shard q) xs .global = c .global :=
      Function.update_of_ne (by simp) _ _
    simp only [tasks, hq, hg, add_assoc, hsum]

/-- Moving tasks keeps them. -/
theorem tasks_moved (hne : src ≠ .shard w) (k : ℕ) : tasks (moved c src w k) = tasks c := by
  have h1 := tasks_update c src ((c src).drop k)
  have h2 := tasks_update (Function.update c src ((c src).drop k)) (.shard w)
    (c (.shard w) ++ (c src).take k)
  rw [Function.update_of_ne hne.symm] at h2
  have h3 : (↑(c src) : Multiset R) = ↑((c src).take k) + ↑((c src).drop k) := by
    rw [Multiset.coe_add, List.take_append_drop]
  rw [← Multiset.coe_add] at h2
  have h4 : tasks (moved c src w k) + (↑(c (.shard w)) + ↑(c src) : Multiset R) =
      tasks c + (↑(c (.shard w)) + ↑(c src)) := by
    calc tasks (moved c src w k) + (↑(c (.shard w)) + ↑(c src) : Multiset R)
        = (tasks (Function.update c src ((c src).drop k)) + ↑(c src)) +
            (↑(c (.shard w)) + ↑((c src).take k)) := by rw [← add_assoc, moved, h2]; abel
      _ = tasks c + (↑(c (.shard w)) + ↑(c src)) := by rw [h1, h3]; abel
  exact add_right_cancel h4

theorem tasks_cons {r : R} {xs : List R} (h : c src = r :: xs) :
    tasks (Function.update c src xs) + {r} = tasks c := by
  have h1 := tasks_update c src xs
  rw [h, ← Multiset.cons_coe, ← Multiset.singleton_add, ← add_assoc] at h1
  exact add_right_cancel h1

/-- The ticker `w` has taken `r` out of the queues: nothing else is lost, and
    the queues that are not its own have lost tasks from the front only. -/
structure Taken (w : Fin n) (s t : Queues n R) (r : R) : Prop where
  tasks : tasks t.items + {r} = tasks s.items
  suffix : ∀ src, src ≠ .shard w → t.items src <:+ s.items src

theorem moved_suffix (hne : src ≠ .shard w) (k : ℕ) (q : Src n) (hq : q ≠ .shard w) :
    moved c src w k q <:+ c q := by
  rw [moved, Function.update_of_ne hq]
  by_cases he : q = src
  · subst he
    rw [Function.update_self]
    exact List.drop_suffix k _
  · rw [Function.update_of_ne he]

/-- Tasks moved to an empty queue, and the first of them popped. -/
theorem Taken.steal_pop (hne : src ≠ .shard w) {k : ℕ} {r : R} {xs : List R}
    (hc : moved s.items src w k (.shard w) = r :: xs)
    (ht : t.items = Function.update (moved s.items src w k) (.shard w) xs) : Taken w s t r where
  tasks := by rw [ht, tasks_cons hc, tasks_moved hne]
  suffix q hq := by
    rw [ht, Function.update_of_ne hq]
    exact moved_suffix hne k q hq

/-- The first task popped from the global queue, and others moved. -/
theorem Taken.pop_steal {k : ℕ} {r : R} {xs : List R} (hc : s.items .global = r :: xs)
    (ht : t.items = moved (Function.update s.items .global xs) .global w k) : Taken w s t r where
  tasks := by rw [ht, tasks_moved (by simp), tasks_cons hc]
  suffix q hq := by
    rw [ht]
    refine (moved_suffix (by simp) k q hq).trans ?_
    by_cases he : q = .global
    · subst he
      rw [Function.update_self, hc]
      exact List.suffix_cons r xs
    · rw [Function.update_of_ne he]

theorem Taken.pop {r : R} {xs : List R} (hc : s.items (.shard w) = r :: xs)
    (ht : t.items = Function.update s.items (.shard w) xs) : Taken w s t r where
  tasks := by rw [ht, tasks_cons hc]
  suffix q hq := by rw [ht, Function.update_of_ne hq]

/-! ## The shards in turn -/

theorem rotate_eq {shards : List (Fin n)} {start : ℕ} (h : start ≤ shards.length) (w : Fin n) :
    rotate shards w start = (shards.rotate start).filter (· ≠ w) := by
  rw [rotate, List.drop_append_of_le_length h, List.rotate_eq_drop_append_take h,
    List.take_append, List.take_of_length_le (by simp), List.length_drop,
    Nat.sub_sub_self h]

theorem mem_rotate {shards : List (Fin n)} {start : ℕ} (h : start ≤ shards.length) {q : Fin n} :
    q ∈ rotate shards w start ↔ q ∈ shards ∧ q ≠ w := by
  rw [rotate_eq h, List.mem_filter, List.mem_rotate, decide_eq_true_eq]

theorem nodup_rotate {shards : List (Fin n)} {start : ℕ} (h : start ≤ shards.length)
    (hn : shards.Nodup) : (rotate shards w start).Nodup := by
  rw [rotate_eq h]
  exact (List.nodup_rotate.2 hn).filter _

theorem Sound.record (hs : s.Sound) (stolen : List (Fin n)) : Sound { s with stolen := stolen } :=
  ⟨hs.locals, hs.capacity⟩

/-- With the ticker's own queue empty, the loop finds a task in the first shard
    that has one. -/
theorem searchShards_run (rest : List (Fin n)) (hw : w ∉ rest) : ∀ {s : Queues n R}, s.Sound →
    s.items (.shard w) = [] → ∃ res t visited, (searchShards w rest).run s = (some res, t) ∧
      t.stolen = s.stolen ++ visited ∧ visited <+: rest ∧
      (res = none ↔ ∀ q ∈ rest, s.items (.shard q) = []) ∧ ∀ r, res = some r → Taken w s t r := by
  induction rest with
  | nil =>
    intro s _ _
    exact ⟨none, s, [], rfl, by simp, List.prefix_rfl, by simp, by simp⟩
  | cons q rest ih =>
    intro s hs hown
    obtain ⟨hqw, hw⟩ := not_or.1 (List.mem_cons.not.1 hw)
    have hne : (Src.shard q : Src n) ≠ .shard w := fun h => hqw (Src.shard.inj h).symm
    -- the call of `steal` on `q`
    obtain ⟨s₀, hs₀⟩ : ∃ s₀ : Queues n R, s₀ = { s with stolen := s.stolen ++ [q] } := ⟨_, rfl⟩
    have hi₀ : s₀.items = s.items := by rw [hs₀]; rfl
    have hstolen : s₀.stolen = s.stolen ++ [q] := by rw [hs₀]
    have hsound : s₀.Sound := hs₀ ▸ hs.record _
    have hlen : (s₀.locals q).len = (s₀.items (.shard q)).length := (hsound.locals q).len_eq
    have hle : (s₀.items (.shard q)).length ≤ (s₀.locals q).capacity := (hsound.locals q).length_le
    have hcap := (hsound.locals q).capacity_le
    obtain ⟨free, t₁, hrun₁, h₁⟩ := steal_run hsound hne (s₀.locals q).len (by omega)
    have hstart : ∀ f : Option ℕ → Prog (Queues n R) (Option R), (do
        record q
        let length ← lenLocal q
        let x ← steal w length (popLocal q)
        f x).run s = (f free).run t₁ := by
      intro f
      rw [Prog.run_bind (record_run q s), ← hs₀, Prog.run_bind (lenLocal_run q s₀)]
      exact Prog.run_bind hrun₁
    cases hq : s.items (.shard q) with
    | nil =>
      -- nothing is moved, and the loop goes on
      rw [moved_nil (hi₀ ▸ hq), hi₀] at h₁
      have hpop : (popLocal w).run t₁ = (some none, t₁) :=
        popFrom_nil (.shard w) h₁.sound (by rw [h₁.items, hown])
      obtain ⟨res, t, visited, hrun, hv, hpre, hnone, htaken⟩ :=
        ih hw h₁.sound (by rw [h₁.items, hown])
      refine ⟨res, t, q :: visited, ?_, ?_, List.cons_prefix_cons.2 ⟨rfl, hpre⟩, ?_, fun r hr => ?_⟩
      · rw [searchShards, hstart, Prog.run_bind hpop]
        exact hrun
      · rw [hv, h₁.stolen, hstolen, List.append_assoc, List.singleton_append]
      · rw [hnone, h₁.items, List.forall_mem_cons, hq]
        simp
      · obtain ⟨htasks, hsuffix⟩ := htaken r hr
        rw [h₁.items] at htasks hsuffix
        exact ⟨htasks, hsuffix⟩
    | cons x xs =>
      -- at least one task is moved, and popped
      obtain ⟨k, hk⟩ : ∃ k, min (((s₀.locals q).len + 1) / 2)
          ((s₀.locals w).capacity - (s₀.items (.shard w)).length) = k + 1 := by
        have hpos := (hsound.locals w).capacity_pos
        refine Nat.exists_eq_succ_of_ne_zero ?_
        rw [hlen, hi₀, hown, hq, List.length_cons, List.length_nil]
        omega
      rw [hk, hi₀] at h₁
      have hmoved : moved s.items (.shard q) w (k + 1) (.shard w) = x :: xs.take k := by
        rw [moved, Function.update_self, hown, hq, List.take_succ_cons, List.nil_append]
      obtain ⟨t, hpop, ht⟩ := popFrom_cons (.shard w) h₁.sound
        (by rw [h₁.items, hmoved] : t₁.items (.shard w) = x :: xs.take k)
      refine ⟨some x, t, [q], ?_, ?_, by simp, ?_, fun r hr => ?_⟩
      · rw [searchShards, hstart]
        exact Prog.run_bind hpop
      · rw [ht.stolen, h₁.stolen, hstolen]
      · simp [hq]
      · cases hr
        exact Taken.steal_pop hne hmoved (by rw [ht.items, h₁.items])

/-- `search` over any shards that include the ticker's own one. -/
theorem search_run (hs : s.Sound) {shards : List (Fin n)} (hn : shards.Nodup) {start : ℕ}
    (hstart : start ≤ shards.length) (w : Fin n) :
    ∃ res t visited, (search shards w start).run s = (some res, t) ∧
      t.stolen = s.stolen ++ visited ∧ visited.Nodup ∧ w ∉ visited ∧
      (res = none ↔ s.items .global = [] ∧ s.items (.shard w) = [] ∧
        ∀ q ∈ shards, s.items (.shard q) = []) ∧
      ∀ f, res = some f → Taken w s t f.task := by
  cases hown : s.items (.shard w) with
  | cons r xs =>
    obtain ⟨t, hpop, ht⟩ := popFrom_cons (.shard w) hs hown
    refine ⟨some (.own r), t, [], Prog.run_bind hpop, ?_, List.nodup_nil, List.not_mem_nil, ?_,
      fun f hf => ?_⟩
    · rw [ht.stolen, List.append_nil]
    · simp
    · cases hf
      exact Taken.pop hown ht.items
  | nil =>
    have hpop : (popLocal w).run s = (some none, s) := popFrom_nil (.shard w) hs hown
    cases hglobal : s.items .global with
    | cons r xs =>
      obtain ⟨t₁, hpop₁, h₁⟩ := popFrom_cons .global hs hglobal
      -- one task fewer than the capacity, so `length + 1` does not overflow
      have hlen : t₁.queue.len < 2 ^ 64 - 1 := by
        have hle : (s.items .global).length ≤ s.queue.capacity := s.queue.queue_length_le
        have hi : t₁.queue.queue = xs :=
          (congrFun h₁.items .global).trans (Function.update_self _ _ _)
        rw [hglobal, List.length_cons, hs.capacity] at hle
        rw [Queue.len, t₁.queue.length_eq, hi]
        omega
      obtain ⟨free, t, hrun, ht⟩ := steal_run h₁.sound (by simp : Src.global ≠ .shard w)
        t₁.queue.len hlen
      refine ⟨some (.global r), t, [], ?_, ?_, List.nodup_nil, List.not_mem_nil, ?_,
        fun f hf => ?_⟩
      · refine (Prog.run_bind hpop).trans ((Prog.run_bind hpop₁).trans ?_)
        exact (Prog.run_bind (lenGlobal_run t₁)).trans (Prog.run_bind hrun)
      · rw [ht.stolen, h₁.stolen, List.append_nil]
      · simp
      · cases hf
        rw [h₁.items] at ht
        exact Taken.pop_steal hglobal ht.items
    | nil =>
      have hpop₁ : popGlobal.run s = (some none, s) := popFrom_nil .global hs hglobal
      obtain ⟨res, t, visited, hrun, hv, hpre, hnone, htaken⟩ :=
        searchShards_run (rotate shards w start) (fun h => ((mem_rotate hstart).1 h).2 rfl) hs hown
      refine ⟨res.map .own, t, visited, ?_, hv, hpre.sublist.nodup (nodup_rotate hstart hn),
        fun h => ((mem_rotate hstart).1 (hpre.subset h)).2 rfl, ?_, fun f hf => ?_⟩
      · refine (Prog.run_bind hpop).trans ((Prog.run_bind hpop₁).trans ((Prog.run_bind hrun).trans ?_))
        cases res <;> rfl
      · rw [Option.map_eq_none_iff, hnone]
        simp only [mem_rotate hstart, true_and]
        constructor
        · intro h q hq
          by_cases hqw : q = w
          · rw [hqw, hown]
          · exact h q ⟨hq, hqw⟩
        · exact fun h q hq => h q hq.1
      · obtain ⟨r, rfl, rfl⟩ := Option.map_eq_some_iff.1 hf
        exact htaken r rfl

/-- **`search` is complete and conserving**: run alone, it finds a task unless
    all queues are empty; what it finds is taken out of the queues and nothing
    else is, the queues that are not its own keep a suffix, and no shard is stolen
    from twice. -/
theorem search_complete {s : Queues n R} (hs : s.Sound) (w : Fin n) {start : ℕ}
    (hstart : start < n) :
    ∃ res t, (search (List.finRange n) w start).run s = (some res, t) ∧
      (res = none ↔ s.queue.queue = [] ∧ ∀ q, (s.locals q).items = []) ∧
      (∀ r, res.map Found.task = some r →
        tasks t.items + {r} = tasks s.items ∧ t.queue.queue <:+ s.queue.queue ∧
        ∀ q, q ≠ w → (t.locals q).items <:+ (s.locals q).items) ∧
      ∃ visited, t.stolen = s.stolen ++ visited ∧ visited.Nodup ∧ w ∉ visited := by
  have hle : start ≤ (List.finRange n).length := by
    rw [List.length_finRange]
    exact hstart.le
  obtain ⟨res, t, visited, hrun, hv, hnodup, hw, hnone, htaken⟩ :=
    search_run hs (List.nodup_finRange n) hle w
  refine ⟨res, t, hrun, ?_, fun r hr => ?_, visited, hv, hnodup, hw⟩
  · rw [hnone]
    exact ⟨fun h => ⟨h.1, fun q => h.2.2 q (List.mem_finRange q)⟩,
      fun h => ⟨h.1, h.2 w, fun q _ => h.2 q⟩⟩
  · obtain ⟨f, hf, rfl⟩ := Option.map_eq_some_iff.1 hr
    obtain ⟨htasks, hsuffix⟩ := htaken f hf
    exact ⟨htasks, hsuffix .global (by simp),
      fun q hq => hsuffix (.shard q) fun h => hq (Src.shard.inj h)⟩

/-- Three tasks in the other shard, whose counters are about to wrap. -/
def threeToSteal : Queues 2 ℕ where
  queue := .unbound
  locals q := if q = 0 then .new 4 0 else
    ((((Local.new 4 (2 ^ 64 - 1)).push 5).2.push 6).2.push 7).2
  ticks := 0
  log := []
  stolen := []

theorem threeToSteal_sound : threeToSteal.Sound := by
  have hnew : ∀ start, (Local.new 4 start : Local (Fin 2) ℕ).Holds [] :=
    fun start => ⟨⟨start, Local.inv_new (by norm_num) start⟩, rfl, rfl⟩
  have h1 := (hnew (2 ^ 64 - 1)).push_room (by decide) 5
  have h2 := h1.2.1.push_room (by rw [h1.2.2]; decide) 6
  have h3 := h2.2.1.push_room (by rw [h2.2.2, h1.2.2]; decide) 7
  refine ⟨fun q => ?_, rfl⟩
  by_cases hq : q = 0
  · simpa only [threeToSteal, if_pos hq, (hnew 0).items] using hnew 0
  · simpa only [threeToSteal, if_neg hq, h3.2.1.items] using h3.2.1

theorem search_complete_steals : ∃ t, (search (List.finRange 2) 0 1).run threeToSteal =
      (some (some (.own 5)), t) ∧ (t.locals 0).items = [6] ∧ t.stolen = [1] ∧
      tasks t.items + {5} = tasks threeToSteal.items ∧
      (t.locals 1).items <:+ (threeToSteal.locals 1).items := by
  obtain ⟨res, t, hrun, -, htaken, -⟩ :=
    search_complete threeToSteal_sound (0 : Fin 2) (by decide : 1 < 2)
  have hres : ((search (List.finRange 2) 0 1).run threeToSteal).1 = some (some (.own 5)) := by
    decide +kernel
  have hown : (((search (List.finRange 2) 0 1).run threeToSteal).2.locals 0).items = [6] := by
    decide +kernel
  have hstolen : ((search (List.finRange 2) 0 1).run threeToSteal).2.stolen = [1] := by
    decide +kernel
  rw [hrun] at hres hown hstolen
  obtain rfl : res = some (.own 5) := Option.some.inj hres
  obtain ⟨htasks, -, hsuffix⟩ := htaken 5 rfl
  exact ⟨t, hrun, hown, hstolen, htasks, hsuffix 1 (by decide)⟩

end Queues
end Awak
