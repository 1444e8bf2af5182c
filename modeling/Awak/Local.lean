/-
  The per-worker run queue `Local<T>` of `executor.rs`: a ring of slots with
  one producer, its owner thread, and any number of consumers.

  Each load, store and compare-exchange of `head` and `tail` and each slot
  read or write is one step.  An operation in progress is recorded by the
  place it has reached (`PopPc`, `PushPc`, `LenPc`), so a state of the queue
  includes the calls in flight.

  `pushed` and `popped` are history: the values whose `push` has published
  them, and the values handed out by successful pops, in the order of their
  compare-exchange.  Some places record the number of pops (or pushes) done
  when the call read a counter; no step of the code looks at these numbers.

  * `Inv`: the ring holds, between `head` and `tail`, the values pushed and
    not yet popped, and every call in flight has read what it had to read;
  * `Inv.cas_claims`: the compare-exchange of `pop` claims the slot it has read;
  * `linearizable`: the queue is a bounded FIFO.
-/
import Awak.Lib.Lts
import Awak.Lib.Word

namespace Awak

open Word

variable {ι T : Type}

/-- What `Local::pop` returns.  A value read from a slot that was never
    written is `none`. -/
inductive PopRes (T : Type) where
  | ok (value : Option T)
  | errorEmpty
  deriving DecidableEq

/-- What `Local::push` returns: `ErrorFull` gives the value back. -/
inductive PushRes (T : Type) where
  | ok
  | errorFull (inner : T)
  deriving DecidableEq

/-- A call of `Local::pop`.  `since` and `seen` are the numbers of pops done
    when the call began and when it read `head`. -/
inductive PopPc (T : Type) where
  | idle
  | loadTail (head since seen : ℕ)
  | readSlot (head since seen : ℕ)
  | cas (head : ℕ) (value : Option T) (since seen : ℕ)
  | ret (res : PopRes T)
  deriving DecidableEq

/-- A call of `Local::push`.  `seen` is the number of pops done when the call
    read `head`, `held` the number of items in the queue at that moment. -/
inductive PushPc (T : Type) where
  | idle
  | loadTail (value : T) (head seen held : ℕ)
  | write (value : T) (tail : ℕ)
  | store (value : T) (tail : ℕ)
  | ret (res : PushRes T)
  deriving DecidableEq

/-- A call of `Local::len`.  `seen` and `made` are the numbers of pops and of
    pushes done when the call read `head`, `now` the number of pushes done
    when it read `tail`. -/
inductive LenPc where
  | idle
  | loadTail (head seen made : ℕ)
  | ret (length seen made now : ℕ)
  deriving DecidableEq

/-- The number of pops done when the call in flight began. -/
def PopPc.since? : PopPc T → Option ℕ
  | .loadTail _ since _ | .readSlot _ since _ | .cas _ _ since _ => some since
  | .idle | .ret _ => none

/-- A `Local` with the calls in flight: `ι` are the threads. -/
structure Local (ι T : Type) where
  head : ℕ
  tail : ℕ
  mask : ℕ
  /-- the slots; only those below `capacity` exist -/
  buffer : ℕ → Option T
  capacity : ℕ
  popping : ι → PopPc T
  /-- the owner thread's push -/
  pushing : PushPc T
  counting : ι → LenPc
  pushed : List T
  popped : List (Option T)

/-- `usize::next_power_of_two`. -/
def nextPowerOfTwo (n : ℕ) : ℕ := if n ≤ 1 then 1 else 2 ^ (Nat.log2 (n - 1) + 1)

theorem nextPowerOfTwo_spec {n : ℕ} (hn : n ≤ 2 ^ 63) :
    n ≤ nextPowerOfTwo n ∧ ∃ k ≤ 63, nextPowerOfTwo n = 2 ^ k := by
  unfold nextPowerOfTwo
  split_ifs with h
  · exact ⟨h, 0, by omega, rfl⟩
  · have h1 : n - 1 < 2 ^ (Nat.log2 (n - 1) + 1) := Nat.lt_log2_self
    have h2 : Nat.log2 (n - 1) < 63 := (Nat.log2_lt (by omega)).2 (by omega)
    exact ⟨by omega, _, h2, rfl⟩

namespace Local

/-- `Local::new(n)`, with both counters starting at `start` (`0` in the code). -/
def new (n : ℕ) (start : ℕ) : Local ι T where
  head := wrap start
  tail := wrap start
  mask := nextPowerOfTwo n - 1
  buffer _ := none
  capacity := nextPowerOfTwo n
  popping _ := .idle
  pushing := .idle
  counting _ := .idle
  pushed := []
  popped := []

/-- The items in the queue: the values pushed and not yet popped. -/
def items (l : Local ι T) : List T := l.pushed.drop l.popped.length

section Steps
variable [DecidableEq ι]

/-- The call of `pop` by `i` goes to `p`. -/
def setPop (l : Local ι T) (i : ι) (p : PopPc T) : Local ι T :=
  { l with popping := Function.update l.popping i p }

/-- The call of `len` by `i` goes to `p`. -/
def setLen (l : Local ι T) (i : ι) (p : LenPc) : Local ι T :=
  { l with counting := Function.update l.counting i p }

/-- Call `pop`: its first step reads `head`. -/
def popCall (l : Local ι T) (i : ι) : Option (Local ι T) :=
  match l.popping i with
  | .idle => some (l.setPop i (.loadTail l.head l.popped.length l.popped.length))
  | _ => none

/-- The next step of thread `i` inside `pop`. -/
def popStep (l : Local ι T) (i : ι) : Option (Local ι T) :=
  match l.popping i with
  | .loadTail head since seen =>
    if head = l.tail then some (l.setPop i (.ret .errorEmpty))
    else some (l.setPop i (.readSlot head since seen))
  | .readSlot head since seen =>
    some (l.setPop i (.cas head (l.buffer (head &&& l.mask)) since seen))
  | .cas head value since _ =>
    if l.head = head then
      some { l.setPop i (.ret (.ok value)) with
        head := wrappingAdd head 1, popped := l.popped ++ [value] }
    else some (l.setPop i (.loadTail l.head since l.popped.length))
  | .idle | .ret _ => none

/-- Return from `pop`. -/
def popRet (l : Local ι T) (i : ι) : Option (Local ι T) :=
  match l.popping i with
  | .ret _ => some (l.setPop i .idle)
  | _ => none

/-- Call `push(value)`: its first step reads `head`. -/
def pushCall (l : Local ι T) (value : T) : Option (Local ι T) :=
  match l.pushing with
  | .idle => some { l with pushing := .loadTail value l.head l.popped.length l.items.length }
  | _ => none

/-- The next step of the owner inside `push`. -/
def pushStep (l : Local ι T) : Option (Local ι T) :=
  match l.pushing with
  | .loadTail value head _ _ =>
    if wrappingSub l.tail head < l.capacity then some { l with pushing := .write value l.tail }
    else some { l with pushing := .ret (.errorFull value) }
  | .write value tail =>
    some { l with
      buffer := Function.update l.buffer (tail &&& l.mask) (some value)
      pushing := .store value tail }
  | .store value tail =>
    some { l with
      tail := wrappingAdd tail 1, pushing := .ret .ok, pushed := l.pushed ++ [value] }
  | .idle | .ret _ => none

/-- Return from `push`. -/
def pushRet (l : Local ι T) : Option (Local ι T) :=
  match l.pushing with
  | .ret _ => some { l with pushing := .idle }
  | _ => none

/-- Call `len`: its first step reads `head`. -/
def lenCall (l : Local ι T) (i : ι) : Option (Local ι T) :=
  match l.counting i with
  | .idle => some (l.setLen i (.loadTail l.head l.popped.length l.pushed.length))
  | _ => none

/-- The next step of thread `i` inside `len`. -/
def lenStep (l : Local ι T) (i : ι) : Option (Local ι T) :=
  match l.counting i with
  | .loadTail head seen made =>
    let length := wrappingSub l.tail head
    some (l.setLen i (.ret (if length ≤ l.capacity then length else l.capacity) seen made
      l.pushed.length))
  | _ => none

/-- Return from `len`. -/
def lenRet (l : Local ι T) (i : ι) : Option (Local ι T) :=
  match l.counting i with
  | .ret .. => some (l.setLen i .idle)
  | _ => none

end Steps

/-- The moves of a `Local`. -/
inductive Act (ι T : Type) where
  | popCall (i : ι)
  | pop (i : ι)
  | popRet (i : ι)
  | pushCall (value : T)
  | push
  | pushRet
  | lenCall (i : ι)
  | len (i : ι)
  | lenRet (i : ι)

/-- One atomic operation of a call. -/
def step [DecidableEq ι] (l : Local ι T) : Act ι T → Option (Local ι T)
  | .popCall i => l.popCall i
  | .pop i => l.popStep i
  | .popRet i => l.popRet i
  | .pushCall value => l.pushCall value
  | .push => l.pushStep
  | .pushRet => l.pushRet
  | .lenCall i => l.lenCall i
  | .len i => l.lenStep i
  | .lenRet i => l.lenRet i

/-- The queue `Local::new(n)` with its counters starting at `start`. -/
def system [DecidableEq ι] (n start : ℕ) : Lts (Local ι T) (Act ι T) where
  init l := l = new n start
  step := step

/-- Fewer than `2 ^ 63` pops have succeeded since any `pop` in flight began. -/
def Fresh (l : Local ι T) : Prop :=
  ∀ i since, (l.popping i).since? = some since → l.popped.length - since < 2 ^ 63

instance [Fintype ι] (l : Local ι T) : Decidable l.Fresh :=
  decidable_of_iff (∀ i, ∀ c ∈ (l.popping i).since?, l.popped.length - c < 2 ^ 63) Iff.rfl

/-! ## The invariant -/

/-- What a `pop` in flight knows, after `pops` pops in all. -/
def PopOk (start : ℕ) (pushed : List T) (pops : ℕ) : PopPc T → Prop
  | .idle => True
  | .loadTail head since seen => since ≤ seen ∧ seen ≤ pops ∧ head = wrap (start + seen)
  | .readSlot head since seen =>
    since ≤ seen ∧ seen ≤ pops ∧ head = wrap (start + seen) ∧ seen < pushed.length
  | .cas head value since seen =>
    since ≤ seen ∧ seen ≤ pops ∧ head = wrap (start + seen) ∧ seen < pushed.length ∧
      (seen = pops → value = pushed[seen]?)
  | .ret (.ok value) => value.isSome
  | .ret .errorEmpty => True

/-- What the `push` in flight knows, after `pushes` pushes and `pops` pops. -/
def PushOk (start capacity : ℕ) (buffer : ℕ → Option T) (pushes pops : ℕ) : PushPc T → Prop
  | .idle => True
  | .loadTail _ head seen held =>
    seen ≤ pops ∧ head = wrap (start + seen) ∧ held = pushes - seen ∧ held ≤ capacity
  | .write _ tail => tail = wrap (start + pushes) ∧ pushes < pops + capacity
  | .store value tail =>
    tail = wrap (start + pushes) ∧ pushes < pops + capacity ∧
      buffer ((start + pushes) % capacity) = some value
  | .ret _ => True

/-- What a `len` in flight knows.  Its answer is exact at the moment it read
    `head` if nothing was pushed before it read `tail`. -/
def LenOk (start capacity : ℕ) (pushes pops : ℕ) : LenPc → Prop
  | .idle => True
  | .loadTail head seen made =>
    head = wrap (start + seen) ∧ seen ≤ pops ∧ seen ≤ made ∧ made ≤ pushes ∧
      made ≤ seen + capacity
  | .ret length seen made now =>
    length ≤ capacity ∧ seen ≤ pops ∧ made ≤ now ∧ now ≤ pushes ∧
      (made = now → length = made - seen)

/-- The invariant of a queue whose counters started at `start`. -/
structure Inv (start : ℕ) (l : Local ι T) : Prop where
  ring : ∃ k ≤ 63, l.capacity = 2 ^ k ∧ l.mask = 2 ^ k - 1
  head : l.head = wrap (start + l.popped.length)
  tail : l.tail = wrap (start + l.pushed.length)
  le : l.popped.length ≤ l.pushed.length
  bound : l.pushed.length ≤ l.popped.length + l.capacity
  fifo : l.popped = (l.pushed.take l.popped.length).map some
  slots : ∀ j, l.popped.length ≤ j → j < l.pushed.length →
    l.buffer ((start + j) % l.capacity) = l.pushed[j]?
  pop : ∀ i, PopOk start l.pushed l.popped.length (l.popping i)
  push : PushOk start l.capacity l.buffer l.pushed.length l.popped.length l.pushing
  len : ∀ i, LenOk start l.capacity l.pushed.length l.popped.length (l.counting i)

theorem PopOk.mono {start pops pops' : ℕ} {pushed pushed' : List T} (hp : pops ≤ pops')
    (hq : pushed <+: pushed') : ∀ {p : PopPc T}, PopOk start pushed pops p →
      PopOk start pushed' pops' p
  | .idle, _ => trivial
  | .loadTail .., ⟨h1, h2, h3⟩ => ⟨h1, h2.trans hp, h3⟩
  | .readSlot .., ⟨h1, h2, h3, h4⟩ => ⟨h1, h2.trans hp, h3, h4.trans_le hq.length_le⟩
  | .cas .., ⟨h1, h2, h3, h4, h5⟩ => by
    refine ⟨h1, h2.trans hp, h3, h4.trans_le hq.length_le, fun he => ?_⟩
    rw [h5 (by omega)]
    obtain ⟨t, rfl⟩ := hq
    exact (List.getElem?_append_left h4).symm
  | .ret (.ok _), h => h
  | .ret .errorEmpty, _ => trivial

theorem PushOk.mono {start capacity pushes pops pops' : ℕ} {buffer : ℕ → Option T}
    (hp : pops ≤ pops') : ∀ {p : PushPc T}, PushOk start capacity buffer pushes pops p →
      PushOk start capacity buffer pushes pops' p
  | .idle, _ | .ret _, _ => trivial
  | .loadTail .., ⟨h1, h2⟩ => ⟨h1.trans hp, h2⟩
  | .write .., ⟨h1, h2⟩ => ⟨h1, by omega⟩
  | .store .., ⟨h1, h2, h3⟩ => ⟨h1, by omega, h3⟩

theorem LenOk.mono {start capacity pushes pushes' pops pops' : ℕ} (hq : pushes ≤ pushes')
    (hp : pops ≤ pops') : ∀ {p : LenPc}, LenOk start capacity pushes pops p →
      LenOk start capacity pushes' pops' p
  | .idle, _ => trivial
  | .loadTail .., ⟨h1, h2, h3, h4, h5⟩ => ⟨h1, h2.trans hp, h3, h4.trans hq, h5⟩
  | .ret .., ⟨h1, h2, h3, h4, h5⟩ => ⟨h1, h2.trans hp, h3, h4.trans hq, h5⟩

theorem inv_new {n : ℕ} (hn : n ≤ 2 ^ 63) (start : ℕ) : Inv start (new n start : Local ι T) := by
  obtain ⟨k, hk, hc⟩ := (nextPowerOfTwo_spec hn).2
  constructor <;> simp [new, PopOk, PushOk, LenOk]
  exact ⟨k, hk, hc, by rw [hc]⟩

namespace Inv
variable {start : ℕ} {l l' : Local ι T}

theorem capacity_le (h : Inv start l) : l.capacity ≤ 2 ^ 63 := by
  obtain ⟨k, h63, hk, -⟩ := h.ring; rw [hk]; exact Nat.pow_le_pow_right (by norm_num) h63

/-- The slot of position `x`. -/
theorem slot (h : Inv start l) (x : ℕ) : wrap x &&& l.mask = x % l.capacity := by
  obtain ⟨k, h63, hk, hm⟩ := h.ring; rw [hk, hm]; exact wrap_and_mask x h63

theorem items_length (h : Inv start l) : l.items.length + l.popped.length = l.pushed.length := by
  have := h.le
  simp only [items, List.length_drop]; omega

theorem distance (h : Inv start l) : wrappingSub l.tail l.head = l.items.length := by
  have := h.items_length; have := h.bound; have := h.capacity_le
  rw [h.head, h.tail, wrappingSub_wrap (by omega) (by omega)]; omega

theorem setPush (h : Inv start l) {p : PushPc T}
    (hp : PushOk start l.capacity l.buffer l.pushed.length l.popped.length p) :
    Inv start { l with pushing := p } :=
  { h with push := hp }

/-- A `pop` that finds its `head` equal to `tail` does so on an empty queue. -/
theorem empty_of_head_eq_tail (h : Inv start l) (hf : l.Fresh) {i : ι} {since seen : ℕ}
    (hp : l.popping i = .loadTail l.tail since seen) : l.items = [] := by
  have hok := h.pop i
  rw [hp] at hok
  obtain ⟨h1, h2, h3⟩ := hok
  have hlt : l.popped.length - since < 2 ^ 63 := hf i since (by rw [hp]; rfl)
  have := h.bound; have := h.capacity_le; have hle := h.le
  have := wrap_inj (a := start + l.pushed.length) (b := start + seen) (by omega) (by omega)
    (by rw [← h3, ← h.tail])
  exact List.length_eq_zero_iff.1 (by have := h.items_length; omega)

/-- The compare-exchange of `pop` succeeds only if no pop has succeeded since
    it read `head`; it then claims the oldest item, and its value is that item. -/
theorem cas_claims (h : Inv start l) (hf : l.Fresh) {i : ι} {value : Option T} {since seen : ℕ}
    (hp : l.popping i = .cas l.head value since seen) :
    seen = l.popped.length ∧ value = l.pushed[l.popped.length]? ∧
      l.popped.length < l.pushed.length := by
  have hok := h.pop i
  rw [hp] at hok
  obtain ⟨h1, h2, h3, h4, h5⟩ := hok
  have hlt : l.popped.length - since < 2 ^ 63 := hf i since (by rw [hp]; rfl)
  have := wrap_inj (a := start + l.popped.length) (b := start + seen) (by omega) (by omega)
    (by rw [← h3, ← h.head])
  have hs : seen = l.popped.length := by omega
  exact ⟨hs, by rw [h5 hs, hs], by omega⟩

/-- `push` compares the exact number of items at the moment it read `head`. -/
theorem push_distance (h : Inv start l) {value : T} {head seen held : ℕ}
    (hp : l.pushing = .loadTail value head seen held) : wrappingSub l.tail head = held := by
  have hok := h.push
  rw [hp] at hok
  obtain ⟨h1, h2, h3, h4⟩ := hok
  have := h.le; have := h.capacity_le
  rw [h.tail, h2, wrappingSub_wrap (by omega) (by omega)]; omega

/-- Writing the slot at `tail` overwrites no item of the queue. -/
theorem write_slots (h : Inv start l) (hlt : l.pushed.length < l.popped.length + l.capacity)
    (v : T) : ∀ j, l.popped.length ≤ j → j < l.pushed.length →
      Function.update l.buffer ((start + l.pushed.length) % l.capacity) (some v)
        ((start + j) % l.capacity) = l.pushed[j]? := by
  intro j hj hj'
  rw [Function.update_of_ne (mod_ne_of_lt (by omega) (by omega))]
  exact h.slots j hj hj'

theorem pushCall (h : Inv start l) {value : T} (hs : l.pushCall value = some l') :
    Inv start l' := by
  unfold Local.pushCall at hs
  split at hs <;> cases hs
  have := h.items_length; have := h.bound
  exact h.setPush ⟨le_rfl, h.head, by omega, by omega⟩

/-- Storing `tail` appends the value in the slot there to the queue. -/
theorem append (h : Inv start l) {value : T} (hlt : l.pushed.length < l.popped.length + l.capacity)
    (hslot : l.buffer ((start + l.pushed.length) % l.capacity) = some value) {p : PushPc T}
    (hp : p = .idle ∨ p = .ret .ok) :
    Inv start { l with
      tail := wrappingAdd l.tail 1, pushing := p, pushed := l.pushed ++ [value] } := by
  have := h.le; have := h.bound
  refine { h with
    tail := ?_, le := ?_, bound := ?_, fifo := ?_, slots := ?_, pop := ?_, push := ?_, len := ?_ }
  all_goals simp only [List.length_append, List.length_singleton]
  · rw [h.tail, wrappingAdd_wrap, Nat.add_assoc]
  · omega
  · omega
  · rw [List.take_append_of_le_length h.le]; exact h.fifo
  · intro j hj hj'
    by_cases he : j = l.pushed.length
    · subst he; rw [hslot, List.getElem?_concat_length]
    · rw [List.getElem?_append_left (by omega)]; exact h.slots j hj (by omega)
  · exact fun i => (h.pop i).mono le_rfl (List.prefix_append _ _)
  · rcases hp with rfl | rfl <;> trivial
  · exact fun i => (h.len i).mono (Nat.le_succ _) le_rfl

/-- Moving `head` takes the oldest item out. -/
theorem advance (h : Inv start l) {value : Option T} (hv : value = l.pushed[l.popped.length]?)
    (hlt : l.popped.length < l.pushed.length) :
    Inv start { l with head := wrappingAdd l.head 1, popped := l.popped ++ [value] } := by
  have hsome : value = some l.pushed[l.popped.length] := by
    rw [hv, List.getElem?_eq_getElem hlt]
  refine { h with
    head := ?_, le := ?_, bound := ?_, fifo := ?_, slots := ?_, pop := ?_, push := ?_, len := ?_ }
  all_goals simp only [List.length_append, List.length_singleton]
  · rw [h.head, wrappingAdd_wrap, Nat.add_assoc]
  · omega
  · have := h.bound; omega
  · rw [List.take_add_one, List.map_append, ← h.fifo, ← hv, hsome]; rfl
  · exact fun j hj hj' => h.slots j (by omega) hj'
  · exact fun i => (h.pop i).mono (Nat.le_succ _) List.prefix_rfl
  · exact h.push.mono (Nat.le_succ _)
  · exact fun i => (h.len i).mono le_rfl (Nat.le_succ _)

theorem pushStep (h : Inv start l) (hs : l.pushStep = some l') : Inv start l' := by
  have hok := h.push
  unfold Local.pushStep at hs
  split at hs
  next value head seen held hp =>
    have hd := h.push_distance hp
    rw [hp] at hok
    obtain ⟨h1, h2, h3, h4⟩ := hok
    split_ifs at hs with hlt <;> cases hs
    · exact h.setPush ⟨h.tail, by omega⟩
    · exact h.setPush trivial
  next value tail hp =>
    rw [hp] at hok
    obtain ⟨h1, h2⟩ := hok
    cases hs
    have hslot : tail &&& l.mask = (start + l.pushed.length) % l.capacity := by rw [h1, h.slot]
    rw [hslot]
    exact { h with slots := h.write_slots h2 value, push := ⟨h1, h2, by simp⟩ }
  next value tail hp =>
    rw [hp] at hok
    obtain ⟨rfl, h2, h3⟩ := hok
    cases hs
    rw [← h.tail]
    exact h.append h2 h3 (Or.inr rfl)
  all_goals cases hs

theorem pushRet (h : Inv start l) (hs : l.pushRet = some l') : Inv start l' := by
  unfold Local.pushRet at hs
  split at hs <;> cases hs
  exact h.setPush trivial

variable [DecidableEq ι]

/-- Moving one `pop` to a place whose knowledge is right keeps the invariant. -/
theorem setPop (h : Inv start l) (i : ι) {p : PopPc T}
    (hp : PopOk start l.pushed l.popped.length p) : Inv start (l.setPop i p) := by
  refine { h with pop := fun j => ?_ }
  by_cases hj : j = i
  · subst hj; simpa [Local.setPop] using hp
  · simpa [Local.setPop, hj] using h.pop j

theorem setLen (h : Inv start l) (i : ι) {p : LenPc}
    (hp : LenOk start l.capacity l.pushed.length l.popped.length p) : Inv start (l.setLen i p) := by
  refine { h with len := fun j => ?_ }
  by_cases hj : j = i
  · subst hj; simpa [Local.setLen] using hp
  · simpa [Local.setLen, hj] using h.len j

theorem popCall (h : Inv start l) {i : ι} (hs : l.popCall i = some l') : Inv start l' := by
  unfold Local.popCall at hs
  split at hs <;> cases hs
  exact h.setPop i ⟨le_rfl, le_rfl, h.head⟩

/-- A successful pop takes the oldest item out. -/
theorem take (h : Inv start l) (hf : l.Fresh) {i : ι} {value : Option T} {since seen : ℕ}
    (hp : l.popping i = .cas l.head value since seen) :
    Inv start { l.setPop i (.ret (.ok value)) with
      head := wrappingAdd l.head 1, popped := l.popped ++ [value] } := by
  obtain ⟨-, hv, hlt⟩ := h.cas_claims hf hp
  refine (h.advance hv hlt).setPop i ?_
  rw [hv, List.getElem?_eq_getElem hlt]
  rfl

theorem popStep (h : Inv start l) (hf : l.Fresh) {i : ι} (hs : l.popStep i = some l') :
    Inv start l' := by
  have hok := h.pop i
  unfold Local.popStep at hs
  split at hs
  next head since seen hp =>
    rw [hp] at hok
    obtain ⟨h1, h2, h3⟩ := hok
    split_ifs at hs with ht <;> cases hs
    · exact h.setPop i trivial
    · -- the counters differ, so the position read is one already pushed
      have hne : seen ≠ l.pushed.length := fun he => ht (by rw [h3, he, ← h.tail])
      exact h.setPop i ⟨h1, h2, h3, by have := h.le; omega⟩
  next head since seen hp =>
    rw [hp] at hok
    obtain ⟨h1, h2, h3, h4⟩ := hok
    cases hs
    refine h.setPop i ⟨h1, h2, h3, h4, fun he => ?_⟩
    rw [h3, h.slot]
    exact h.slots seen (by omega) h4
  next head value since seen hp =>
    rw [hp] at hok
    obtain ⟨h1, h2, h3, h4, -⟩ := hok
    split_ifs at hs with hh <;> cases hs
    · subst hh; exact h.take hf hp
    · exact h.setPop i ⟨by omega, le_rfl, h.head⟩
  all_goals cases hs

theorem popRet (h : Inv start l) {i : ι} (hs : l.popRet i = some l') : Inv start l' := by
  unfold Local.popRet at hs
  split at hs <;> cases hs
  exact h.setPop i trivial

theorem lenCall (h : Inv start l) {i : ι} (hs : l.lenCall i = some l') : Inv start l' := by
  unfold Local.lenCall at hs
  split at hs <;> cases hs
  exact h.setLen i ⟨h.head, le_rfl, h.le, le_rfl, h.bound⟩

theorem lenStep (h : Inv start l) {i : ι} (hs : l.lenStep i = some l') : Inv start l' := by
  have hok := h.len i
  unfold Local.lenStep at hs
  split at hs
  next head seen made hp =>
    rw [hp] at hok
    obtain ⟨h1, h2, h3, h4, h5⟩ := hok
    cases hs
    refine h.setLen i ⟨?_, h2, h4, le_rfl, fun he => ?_⟩
    · split_ifs <;> omega
    · have hd : wrappingSub l.tail head = made - seen := by
        have := h.capacity_le
        rw [h.tail, h1, wrappingSub_wrap (by omega) (by omega)]; omega
      rw [hd, if_pos (by omega)]
  next => cases hs

theorem lenRet (h : Inv start l) {i : ι} (hs : l.lenRet i = some l') : Inv start l' := by
  unfold Local.lenRet at hs
  split at hs <;> cases hs
  exact h.setLen i trivial

theorem step (h : Inv start l) (hf : l.Fresh) {a : Act ι T} (hs : l.step a = some l') :
    Inv start l' := by
  cases a with
  | popCall i => exact h.popCall hs
  | pop i => exact h.popStep hf hs
  | popRet i => exact h.popRet hs
  | pushCall value => exact h.pushCall hs
  | push => exact h.pushStep hs
  | pushRet => exact h.pushRet hs
  | lenCall i => exact h.lenCall hs
  | len i => exact h.lenStep hs
  | lenRet i => exact h.lenRet hs

end Inv

theorem step_capacity [DecidableEq ι] {l l' : Local ι T} {a : Act ι T} (hs : l.step a = some l') :
    l'.capacity = l.capacity := by
  cases a <;> simp only [step, popCall, popStep, popRet, pushCall, pushStep, pushRet, lenCall,
    lenStep, lenRet] at hs <;> split at hs <;> (try split_ifs at hs) <;> cases hs <;> rfl

/-- Every state reached in runs where no `pop` sees `2 ^ 63` others succeed
    satisfies the invariant. -/
theorem inv_reach [DecidableEq ι] {n start : ℕ} (hn : n ≤ 2 ^ 63) {l : Local ι T}
    (h : (system n start).Reach (fun l _ => l.Fresh) l) :
    Inv start l ∧ l.capacity = nextPowerOfTwo n := by
  refine h.inv (P := fun l => Inv start l ∧ l.capacity = nextPowerOfTwo n) ?_ ?_
  · rintro _ rfl; exact ⟨inv_new hn start, rfl⟩
  · rintro l a l' - ⟨hi, hc⟩ hf hs
    exact ⟨hi.step hf hs, (step_capacity hs).trans hc⟩

/-! ## The queue is a bounded FIFO -/

namespace Inv
variable {start : ℕ} {l l' : Local ι T}

theorem popped_prefix (h : Inv start l) : l.popped <+: l.pushed.map some := by
  rw [h.fifo]; exact (List.take_prefix _ _).map some

theorem slot_items (h : Inv start l) (j : ℕ) (hj : j < l.items.length) :
    l.buffer (wrappingAdd l.head j &&& l.mask) = some l.items[j] := by
  have := h.items_length
  rw [h.head, wrappingAdd_wrap, h.slot, Nat.add_assoc, h.slots _ (by omega) (by omega)]
  simp only [items, List.getElem_drop]
  exact List.getElem?_eq_getElem (by omega)

/-- The step at which `pop` decides to return `ErrorEmpty` is taken on an
    empty queue. -/
theorem errorEmpty [DecidableEq ι] (h : Inv start l) (hf : l.Fresh) {i : ι}
    (hs : l.popStep i = some l') (hr : l'.popping i = .ret .errorEmpty) : l.items = [] := by
  unfold Local.popStep at hs
  split at hs
  next head since seen hp =>
    split_ifs at hs with ht
    · subst ht; exact h.empty_of_head_eq_tail hf hp
    · cases hs; simp [Local.setPop] at hr
  next head since seen hp => cases hs; simp [Local.setPop] at hr
  next head value since seen hp =>
    split_ifs at hs <;> cases hs <;> simp [Local.setPop] at hr
  all_goals cases hs

/-- A `push` that returns `ErrorFull` gives its value back, and the queue held
    `capacity` items when it read `head`. -/
theorem errorFull (h : Inv start l) {value : T} (hs : l.pushStep = some l')
    (hr : l'.pushing = .ret (.errorFull value)) :
    ∃ head seen, l.pushing = .loadTail value head seen l.capacity := by
  unfold Local.pushStep at hs
  split at hs
  next v head seen held hp =>
    have hd := h.push_distance hp
    have hok := h.push
    rw [hp] at hok
    obtain ⟨-, -, -, h4⟩ := hok
    split_ifs at hs with hlt
    · cases hs; cases hr
    · cases hs; cases hr
      exact ⟨head, seen, by rw [hp, show held = l.capacity by omega]⟩
  next => cases hs; cases hr
  next => cases hs; cases hr
  all_goals cases hs

end Inv

/-- **`Local` is a bounded FIFO** for one producer and any number of
    consumers, whatever the common starting value of its counters. -/
theorem linearizable [DecidableEq ι] {n start : ℕ} (hn : n ≤ 2 ^ 63) {l : Local ι T}
    (h : (system n start).Reach (fun l _ => l.Fresh) l) :
    l.capacity = nextPowerOfTwo n ∧
    -- the slots between `head` and `tail` hold the items, at most `capacity` of them
    wrappingSub l.tail l.head ≤ l.capacity ∧
    wrappingSub l.tail l.head = l.items.length ∧
    (∀ j (hj : j < l.items.length),
      l.buffer (wrappingAdd l.head j &&& l.mask) = some l.items[j]) ∧
    -- successful pops return the pushed values in order
    l.popped <+: l.pushed.map some ∧
    -- `ErrorEmpty` and `ErrorFull` are returned only when they hold during the call
    (∀ i l', l.Fresh → l.popStep i = some l' → l'.popping i = .ret .errorEmpty → l.items = []) ∧
    (∀ value l', l.pushStep = some l' → l'.pushing = .ret (.errorFull value) →
      ∃ head seen, l.pushing = .loadTail value head seen l.capacity) ∧
    -- `len` answers at most `capacity`, and exactly if nothing is pushed meanwhile
    (∀ i length seen made now, l.counting i = .ret length seen made now →
      length ≤ l.capacity ∧ (made = now → length = made - seen)) := by
  obtain ⟨hi, hc⟩ := inv_reach hn h
  have hd := hi.distance
  refine ⟨hc, ?_, hd, hi.slot_items, hi.popped_prefix, fun i l' hf hs hr => hi.errorEmpty hf hs hr,
    fun v l' hs hr => hi.errorFull hs hr, fun i length seen made now hp => ?_⟩
  · have := hi.items_length; have := hi.bound; omega
  · have hok := hi.len i
    rw [hp] at hok
    exact ⟨hok.1, hok.2.2.2.2⟩

/-- A push of `7`, and a pop overlapping a push of `8`. -/
def pushPushPop : List (Act (Fin 2) ℕ) :=
  [.pushCall 7, .push, .push, .push, .pushRet, .popCall 0, .pushCall 8, .pop 0, .push, .pop 0,
    .push, .pop 0, .push]

/-- The counters pass `2 ^ 64` between the two pushes. -/
theorem linearizable_wrap : ∃ l : Local (Fin 2) ℕ,
    (system 2 (2 ^ 64 - 1)).run (new 2 (2 ^ 64 - 1)) pushPushPop = some l ∧
      l.items = [8] ∧ l.popped = [some 7] ∧ l.tail = 1 ∧ l.popped <+: l.pushed.map some := by
  refine ⟨_, rfl, rfl, rfl, rfl, ?_⟩
  have hm : (system 2 (2 ^ 64 - 1)).Meets (fun l _ => l.Fresh) (new 2 (2 ^ 64 - 1)) pushPushPop := by
    decide +kernel
  exact (linearizable (by norm_num) (.run (.init rfl) hm rfl)).2.2.2.2.1

end Local
end Awak
