/-
  The registrations of `io/poller/epoll.rs`, with their flags, below those of the sources.

  `interest`, `insert` and `remove` of the system's `Reactor` are `epoll_ctl` with
  `EPOLL_CTL_MOD`, `EPOLL_CTL_ADD` and `EPOLL_CTL_DEL`; calls that fail change nothing and are
  left out.  The kernel adds `EPOLLERR` and `EPOLLHUP` to what it stores.  `epoll_wait` reports
  for each descriptor at most once some flags that it has stored, not those that are input
  only, and disables it by `EPOLLONESHOT`, up to the length of the list.  `Reactor::new`
  registers an eventfd and a timerfd, and `wait` arms the one before `epoll_wait` and the
  other after it, both with `NOTIFY_KEY`; `Poller::interest` refuses that key and
  `Poller::wait` leaves their events out.

  * `Call`, `apply`: the same calls on the registrations that the sources have, and
    `sources_call`: what the sources do to these is such calls;
  * `Stands`: what is stored stands for the registration that the sources have;
  * `events_exact`: the events that `Poller::wait` can return are exactly the batches that the
    sources expect.
-/
import Awak.Sources

namespace Awak.Epoll

open Sources

/-! ## Flags -/

/-- `libc`'s flags. -/
def EPOLLIN : BitVec 32 := 0x001
def EPOLLPRI : BitVec 32 := 0x002
def EPOLLOUT : BitVec 32 := 0x004
def EPOLLERR : BitVec 32 := 0x008
def EPOLLHUP : BitVec 32 := 0x010
def EPOLLRDHUP : BitVec 32 := 0x2000
def EPOLLONESHOT : BitVec 32 := 0x40000000

/-- `read_flags`. -/
def readFlags : BitVec 32 := EPOLLIN ||| EPOLLRDHUP ||| EPOLLHUP ||| EPOLLERR ||| EPOLLPRI

/-- `write_flags`. -/
def writeFlags : BitVec 32 := EPOLLOUT ||| EPOLLHUP ||| EPOLLERR

/-- The flags that `interest` asks for. -/
def interestFlags (read write : Bool) : BitVec 32 :=
  let flags := EPOLLONESHOT
  let flags := if read then flags ||| readFlags else flags
  if write then flags ||| writeFlags else flags

/-- `EPOLLERR` and `EPOLLHUP` are always stored. -/
def stored (flags : BitVec 32) : BitVec 32 := flags ||| EPOLLERR ||| EPOLLHUP

/-- The flags that can be reported. -/
def reportable (flags : BitVec 32) : BitVec 32 := flags &&& ~~~EPOLLONESHOT

/-- `r` has flags of `m` only. -/
def Within (r m : BitVec 32) : Prop := r &&& ~~~m = 0

instance (r m : BitVec 32) : Decidable (Within r m) := inferInstanceAs (Decidable (_ = _))

theorem Within.and_eq {r m : BitVec 32} (h : Within r m) : r &&& m = r := by
  have hsplit : (r &&& m) ||| (r &&& ~~~m) = r := by
    ext i hi
    simp only [BitVec.getElem_or, BitVec.getElem_and, BitVec.getElem_not]
    cases r[i] <;> cases m[i] <;> rfl
  rw [show r &&& ~~~m = 0 from h] at hsplit
  simpa using hsplit

/-- The readiness that `Events::iter` reads off the flags. -/
def ready (flags : BitVec 32) : Op → Bool
  | .read => flags &&& readFlags != 0
  | .write => flags &&& writeFlags != 0

/-- Flags of `m` are flags of a larger mask. -/
theorem Within.and_ne {r m flags : BitVec 32} (h : Within r m) (hr : r ≠ 0)
    (hm : m &&& flags = m) : (r &&& flags != 0) = true := by
  have hand : r &&& flags = r := by
    calc r &&& flags = (r &&& m) &&& flags := by rw [h.and_eq]
      _ = r &&& (m &&& flags) := BitVec.and_assoc ..
      _ = r := by rw [hm, h.and_eq]
  rw [hand]
  exact bne_iff_ne.2 hr

/-- What is reported is an error or a hang-up, or something asked for. -/
theorem ready_of_within {read write : Bool} {r : BitVec 32} (hr : r ≠ 0)
    (h : Within r (reportable (stored (interestFlags read write)))) :
    ready r .read = true ∧ ready r .write = true ∨ ready r .read = true ∧ read = true ∨
      ready r .write = true ∧ write = true := by
  cases read <;> cases write
  · exact Or.inl ⟨h.and_ne hr (by decide), h.and_ne hr (by decide)⟩
  · exact Or.inr (Or.inr ⟨h.and_ne hr (by decide), rfl⟩)
  · exact Or.inr (Or.inl ⟨h.and_ne hr (by decide), rfl⟩)
  · have hmask : reportable (stored (interestFlags true true)) = readFlags ||| writeFlags := by
      decide
    rw [hmask] at h
    have hsplit : (r &&& readFlags) ||| (r &&& writeFlags) = r := by
      rw [← BitVec.and_or_distrib_left, h.and_eq]
    by_cases hread : r &&& readFlags = 0
    · have hwrite : r &&& writeFlags = r := by simpa [hread] using hsplit
      refine Or.inr (Or.inr ⟨?_, rfl⟩)
      rw [ready, hwrite]
      exact bne_iff_ne.2 hr
    · exact Or.inr (Or.inl ⟨bne_iff_ne.2 hread, rfl⟩)

/-- Some flags that mean this readiness. -/
def flagsOf (read write : Bool) : BitVec 32 :=
  if read && write then EPOLLHUP else if read then EPOLLIN else EPOLLOUT

/-- The readiness that the sources expect can be reported. -/
theorem within_flagsOf {read write r w : Bool}
    (h : (r && w || r && read || w && write) = true) :
    Within (flagsOf r w) (reportable (stored (interestFlags read write))) ∧ flagsOf r w ≠ 0 ∧
      ready (flagsOf r w) .read = r ∧ ready (flagsOf r w) .write = w := by
  revert h
  cases read <;> cases write <;> cases r <;> cases w <;> decide

/-! ## The registrations -/

/-- `libc::epoll_event`, as the kernel stores it for a descriptor. -/
structure Item where
  events : BitVec 32
  data : BitVec 64
  deriving DecidableEq

/-- The key of the eventfd and of the timerfd, `usize::MAX`. -/
def NOTIFY_KEY : BitVec 64 := BitVec.allOnes 64

/-- The length of the list of `Events`. -/
def maxEvents : ℕ := 1000

/-- The descriptors of the poller itself. -/
structure Own where
  eventFd : ℕ
  timerFd : ℕ
  ne : eventFd ≠ timerFd

/-- The descriptor is not one of the poller. -/
def Own.Foreign (o : Own) (raw : ℕ) : Prop := raw ≠ o.eventFd ∧ raw ≠ o.timerFd

instance (o : Own) (raw : ℕ) : Decidable (o.Foreign raw) := inferInstanceAs (Decidable (_ ∧ _))

/-- Where the thread that calls `Reactor::wait` is. -/
inductive Pc where
  | idle
  /-- the timerfd is armed, and `epoll_wait` is next -/
  | armed
  /-- `epoll_wait` has returned, and the eventfd is armed next -/
  | waited
  deriving DecidableEq

/-- What the kernel has stored, and the thread in `wait`. -/
structure State where
  items : ℕ → Option Item
  pc : Pc

/-- The calls of the poller that succeed, and an error in `wait`. -/
inductive Act where
  | insert (raw : ℕ)
  | interest (raw : ℕ) (key : BitVec 64) (read write : Bool)
  /-- `remove`, or the descriptor is closed -/
  | remove (raw : ℕ)
  /-- `wait` arms the timerfd -/
  | armTimer
  /-- `epoll_wait` reports these flags -/
  | wait (reports : List (ℕ × BitVec 32))
  /-- `wait` arms the eventfd and returns -/
  | armEvent
  /-- `epoll_wait`, or arming the eventfd, fails -/
  | fail

/-- What the kernel may report. -/
def Reports (t : ℕ → Option Item) (reports : List (ℕ × BitVec 32)) : Prop :=
  (reports.map Prod.fst).Nodup ∧ reports.length ≤ maxEvents ∧
    ∀ p ∈ reports, (t p.1).any (fun item => p.2 ≠ 0 ∧ Within p.2 (reportable item.events)) = true

instance (t : ℕ → Option Item) (reports : List (ℕ × BitVec 32)) : Decidable (Reports t reports) :=
  inferInstanceAs (Decidable (_ ∧ _ ∧ _))

/-- `Events::iter`; the descriptor of an event is kept for the specification. -/
def iter (t : ℕ → Option Item) (reports : List (ℕ × BitVec 32)) : List Event :=
  reports.filterMap fun p => (t p.1).map fun item => ⟨p.1, item.data.toNat, ready p.2⟩

/-- What `Poller::wait` returns. -/
def events (t : ℕ → Option Item) (reports : List (ℕ × BitVec 32)) : List Event :=
  (iter t reports).filter fun ev => ev.key ≠ NOTIFY_KEY.toNat

/-- `EPOLLONESHOT` disables what was reported. -/
def disable (t : ℕ → Option Item) (reports : List (ℕ × BitVec 32)) (raw : ℕ) : Option Item :=
  if raw ∈ reports.map Prod.fst then
    (t raw).map fun item => { item with events := item.events &&& EPOLLONESHOT }
  else t raw

/-- The eventfd or the timerfd, when it is armed. -/
def ownItem : Item := ⟨stored (interestFlags true false), NOTIFY_KEY⟩

/-- `Reactor::new`. -/
def new (o : Own) : State :=
  ⟨Function.update (Function.update (fun _ => none) o.timerFd (some ⟨stored EPOLLONESHOT, 0⟩))
    o.eventFd (some ownItem), .idle⟩

/-- One call of `epoll_ctl` or `epoll_wait`; between those of `wait` other threads make theirs. -/
def step (o : Own) (s : State) : Act → Option State
  | .insert raw =>
    match s.items raw with
    | none => some { s with items := Function.update s.items raw (some ⟨stored EPOLLONESHOT, 0⟩) }
    | some _ => none
  | .interest raw key read write =>
    match s.items raw with
    | some _ =>
      -- the sources do not have the descriptors of the poller
      if key ≠ NOTIFY_KEY ∧ o.Foreign raw then
        some { s with items :=
          Function.update s.items raw (some ⟨stored (interestFlags read write), key⟩) }
      else none
    | none => none
  | .remove raw =>
    match s.items raw with
    | some _ =>
      if o.Foreign raw then some { s with items := Function.update s.items raw none } else none
    | none => none
  | .armTimer =>
    if s.pc = .idle then some ⟨Function.update s.items o.timerFd (some ownItem), .armed⟩ else none
  | .wait reports =>
    if s.pc = .armed ∧ Reports s.items reports then some ⟨disable s.items reports, .waited⟩
    else none
  | .armEvent =>
    if s.pc = .waited then some ⟨Function.update s.items o.eventFd (some ownItem), .idle⟩
    else none
  | .fail => if s.pc ≠ .idle then some { s with pc := .idle } else none

/-- The poller, from `Reactor::new` on. -/
def system (o : Own) : Lts State Act where
  init s := s = new o
  step := step o

/-! ## The registrations that the sources have -/

/-- The calls on them; the poller's own descriptors are not among them. -/
inductive Call where
  | insert (raw : ℕ)
  | interest (raw key : ℕ) (flags : Op → Bool)
  | remove (raw : ℕ)
  | wait (evs : List Event)

/-- What a call does to the registrations that the sources have. -/
def apply (r : ℕ → Option Reg) : Call → ℕ → Option Reg
  | .insert raw => Function.update r raw (some ⟨true, fun _ => false, 0⟩)
  | .interest raw key flags => Function.update r raw (some ⟨true, flags, key⟩)
  | .remove raw => Function.update r raw none
  | .wait evs => fun raw =>
    if raw ∈ evs.map Event.raw then (r raw).map fun reg => { reg with armed := false } else r raw

/-- The two flags of `interest`, by direction. -/
def directions (read write : Bool) : Op → Bool
  | .read => read
  | .write => write

/-- What a call of the poller is for the sources. -/
def Act.call (s : State) : Act → Option Call
  | .insert raw => some (.insert raw)
  | .interest raw key read write => some (.interest raw key.toNat (directions read write))
  | .remove raw => some (.remove raw)
  | .wait reports => some (.wait (events s.items reports))
  | .armTimer | .armEvent | .fail => none

/-- The calls of the sources are applied to what they have. -/
def record (r : ℕ → Option Reg) (s : State) (a : Act) : ℕ → Option Reg :=
  match a.call s with
  | some c => apply r c
  | none => r

/-- The registrations, with what the sources have of them. -/
def recorded (o : Own) : Lts (State × (ℕ → Option Reg)) Act :=
  (system o).monitor (fun _ => none) record

/-- What is stored for a descriptor stands for the registration that the sources have. -/
def Stands : Option Item → Option Reg → Prop
  | none, r => r = none
  | some _, none => False
  | some item, some reg => item.data ≠ NOTIFY_KEY ∧ reg.key = item.data.toNat ∧
    item.events = if reg.armed then stored (interestFlags (reg.flags .read) (reg.flags .write))
      else EPOLLONESHOT

/-- The descriptors of the poller are always registered, and with `NOTIFY_KEY` from the first
    `wait` on; the others are those of the sources. -/
structure Inv (o : Own) (s : State) (r : ℕ → Option Reg) : Prop where
  stands : ∀ raw, o.Foreign raw → Stands (s.items raw) (r raw)
  own : ∀ raw, ¬ o.Foreign raw → r raw = none ∧ ∃ item, s.items raw = some item ∧
    (raw = o.eventFd ∨ s.pc ≠ .idle → item.data = NOTIFY_KEY)

theorem stored_disabled (read write : Bool) :
    stored (interestFlags read write) &&& EPOLLONESHOT = EPOLLONESHOT := by
  cases read <;> cases write <;> decide

section Invariant
variable {o : Own} {s s' : State} {r : ℕ → Option Reg}

theorem inv_new (o : Own) : Inv o (new o) fun _ => none where
  stands raw hraw := by
    have hnone : (new o).items raw = none := by simp [new, hraw.1, hraw.2]
    rw [hnone]
    rfl
  own raw hraw := by
    refine ⟨rfl, ?_⟩
    by_cases he : raw = o.eventFd
    · exact ⟨ownItem, by simp [new, he], fun _ => rfl⟩
    · have ht : raw = o.timerFd := by
        by_contra hne
        exact hraw ⟨he, hne⟩
      refine ⟨⟨stored EPOLLONESHOT, 0⟩, by simp [new, ht, o.ne.symm], fun h => ?_⟩
      rcases h with h | h
      · exact absurd h he
      · exact absurd rfl h

/-- A call on a descriptor of the sources. -/
theorem Inv.update (h : Inv o s r) {raw : ℕ} (hraw : o.Foreign raw) (item : Option Item)
    (reg : Option Reg) (hs : Stands item reg) :
    Inv o { s with items := Function.update s.items raw item } (Function.update r raw reg) where
  stands raw' hraw' := by
    dsimp only
    by_cases he : raw' = raw
    · subst he
      rwa [Function.update_self, Function.update_self]
    · rw [Function.update_of_ne he, Function.update_of_ne he]
      exact h.stands raw' hraw'
  own raw' hraw' := by
    dsimp only
    have hne : raw' ≠ raw := by
      rintro rfl
      exact hraw' hraw
    rw [Function.update_of_ne hne, Function.update_of_ne hne]
    exact h.own raw' hraw'

/-- The poller arms one of its own descriptors. -/
theorem Inv.arm (h : Inv o s r) {raw : ℕ} (hraw : ¬ o.Foreign raw) {pc : Pc}
    (hpc : pc ≠ .idle → raw = o.timerFd ∨ s.pc ≠ .idle) :
    Inv o ⟨Function.update s.items raw (some ownItem), pc⟩ r where
  stands raw' hraw' := by
    dsimp only
    have hne : raw' ≠ raw := by
      rintro rfl
      exact hraw hraw'
    rw [Function.update_of_ne hne]
    exact h.stands raw' hraw'
  own raw' hraw' := by
    dsimp only
    obtain ⟨hr, item, hitem, hdata⟩ := h.own raw' hraw'
    refine ⟨hr, ?_⟩
    by_cases he : raw' = raw
    · subst he
      exact ⟨ownItem, Function.update_self .., fun _ => rfl⟩
    · refine ⟨item, (Function.update_of_ne he ..).trans hitem, fun hcase => hdata ?_⟩
      rcases hcase with hevent | hidle
      · exact Or.inl hevent
      · rcases hpc hidle with ht | hidle'
        · -- the other one of the two is the eventfd
          refine Or.inl ?_
          by_contra hne
          exact hraw' ⟨hne, ht ▸ he⟩
        · exact Or.inr hidle'

end Invariant

theorem mem_events {t : ℕ → Option Item} {reports : List (ℕ × BitVec 32)} {ev : Event} :
    ev ∈ events t reports ↔ ∃ flags item, (ev.raw, flags) ∈ reports ∧ t ev.raw = some item ∧
      item.data ≠ NOTIFY_KEY ∧ ev = ⟨ev.raw, item.data.toNat, ready flags⟩ := by
  constructor
  · intro h
    obtain ⟨hiter, hkey⟩ := List.mem_filter.1 h
    obtain ⟨p, hp, hev⟩ := List.mem_filterMap.1 hiter
    obtain ⟨item, hitem, rfl⟩ := Option.map_eq_some_iff.1 hev
    refine ⟨p.2, item, hp, hitem, ?_, rfl⟩
    rintro hdata
    simp [hdata] at hkey
  · rintro ⟨flags, item, hp, hitem, hdata, hev⟩
    refine List.mem_filter.2 ⟨List.mem_filterMap.2 ⟨(ev.raw, flags), hp, ?_⟩, ?_⟩
    · rw [hitem, Option.map_some, ← hev]
    · rw [hev]
      simpa [BitVec.toNat_inj] using hdata

/-- The descriptors of the events are reported, in the same order. -/
theorem events_sublist (t : ℕ → Option Item) (reports : List (ℕ × BitVec 32)) :
    List.Sublist ((events t reports).map Event.raw) (reports.map Prod.fst) := by
  refine (List.filter_sublist.map Event.raw).trans ?_
  induction reports with
  | nil => exact List.Sublist.refl _
  | cons p reports ih =>
    cases hitem : t p.1 with
    | none =>
      rw [iter, List.filterMap_cons_none (by rw [hitem]; rfl)]
      exact ih.trans (List.sublist_cons_self ..)
    | some item =>
      rw [iter, List.filterMap_cons_some (by rw [hitem]; rfl)]
      exact ih.cons_cons _

section Steps
variable {o : Own} {s s' : State} {r : ℕ → Option Reg}

/-- An event without `NOTIFY_KEY` has a descriptor of the sources. -/
theorem Inv.foreign (h : Inv o s r) (hpc : s.pc ≠ .idle) {raw : ℕ} {item : Item}
    (hitem : s.items raw = some item) (hdata : item.data ≠ NOTIFY_KEY) : o.Foreign raw := by
  by_contra hown
  obtain ⟨-, item', hitem', hkey⟩ := h.own raw hown
  cases hitem.symm.trans hitem'
  exact hdata (hkey (Or.inr hpc))

/-- `epoll_wait` has returned. -/
theorem Inv.disable (h : Inv o s r) (hpc : s.pc ≠ .idle) (reports : List (ℕ × BitVec 32)) :
    Inv o ⟨disable s.items reports, .waited⟩ (apply r (.wait (events s.items reports))) where
  stands raw hraw := by
    have hstands := h.stands raw hraw
    cases hitem : s.items raw with
    | none =>
      rw [hitem] at hstands
      simp only [Epoll.disable, apply, hitem, show r raw = none from hstands, Option.map_none,
        ite_self]
      rfl
    | some item =>
      rw [hitem] at hstands
      cases hreg : r raw with
      | none =>
        rw [hreg] at hstands
        cases hstands
      | some reg =>
        rw [hreg] at hstands
        obtain ⟨hdata, hkey, hevents⟩ := hstands
        have hmem : raw ∈ (events s.items reports).map Event.raw ↔
            raw ∈ reports.map Prod.fst := by
          refine ⟨fun hm => (events_sublist s.items reports).subset hm, fun hm => ?_⟩
          obtain ⟨p, hp, rfl⟩ := List.mem_map.1 hm
          exact List.mem_map.2 ⟨⟨p.1, item.data.toNat, ready p.2⟩,
            mem_events.2 ⟨p.2, item, hp, hitem, hdata, rfl⟩, rfl⟩
        have hdisabled : item.events &&& EPOLLONESHOT = EPOLLONESHOT := by
          rw [hevents]
          split
          · exact stored_disabled _ _
          · decide
        simp only [Epoll.disable, apply, hitem, hreg, hmem, Option.map_some]
        split
        · exact ⟨hdata, hkey, by simpa using hdisabled⟩
        · exact ⟨hdata, hkey, hevents⟩
  own raw hraw := by
    obtain ⟨hr, item, hitem, hdata⟩ := h.own raw hraw
    simp only [Epoll.disable, apply, hitem, hr, Option.map_none, ite_self, Option.map_some,
      true_and]
    split_ifs
    · exact ⟨_, rfl, fun _ => hdata (Or.inr hpc)⟩
    · exact ⟨item, rfl, fun _ => hdata (Or.inr hpc)⟩

theorem Inv.step (h : Inv o s r) {a : Act} (hs : step o s a = some s') :
    Inv o s' (record r s a) := by
  cases a with
  | insert raw =>
    simp only [Epoll.step] at hs
    split at hs <;> cases hs
    next hnone =>
      have hraw : o.Foreign raw := by
        by_contra hown
        obtain ⟨-, item, hitem, -⟩ := h.own raw hown
        cases hnone.symm.trans hitem
      exact h.update hraw _ (some ⟨true, fun _ => false, 0⟩) ⟨by decide, rfl, rfl⟩
  | interest raw key read write =>
    simp only [Epoll.step] at hs
    split at hs
    next item hitem =>
      split_ifs at hs with hkey
      cases hs
      exact h.update hkey.2 _ (some ⟨true, directions read write, key.toNat⟩)
        ⟨hkey.1, rfl, rfl⟩
    next => cases hs
  | remove raw =>
    simp only [Epoll.step] at hs
    split at hs
    next item hitem =>
      split_ifs at hs with hraw
      cases hs
      exact h.update hraw none none rfl
    next => cases hs
  | armTimer =>
    simp only [Epoll.step] at hs
    split_ifs at hs with hpc
    cases hs
    exact h.arm (fun hraw => hraw.2 rfl) fun _ => Or.inl rfl
  | wait reports =>
    simp only [Epoll.step] at hs
    split_ifs at hs with hpc
    cases hs
    exact h.disable (by rw [hpc.1]; decide) reports
  | armEvent =>
    simp only [Epoll.step] at hs
    split_ifs at hs with hpc
    cases hs
    exact h.arm (fun hraw => hraw.1 rfl) fun hidle => absurd rfl hidle
  | fail =>
    simp only [Epoll.step] at hs
    split_ifs at hs
    cases hs
    refine ⟨h.stands, fun raw hraw => ?_⟩
    obtain ⟨hr, item, hitem, hdata⟩ := h.own raw hraw
    exact ⟨hr, item, hitem, fun hcase => hdata (hcase.imp_right fun hidle => absurd rfl hidle)⟩

theorem inv_reach {p : State × (ℕ → Option Reg)} (h : (recorded o).Reachable p) :
    Inv o p.1 p.2 := by
  refine h.inv (P := fun p => Inv o p.1 p.2) (fun p hp => ?_) fun p a p' _ ih _ hs => ?_
  · rw [show p.1 = new o from hp.1, hp.2]
    exact inv_new o
  · obtain ⟨hstep, hrecord⟩ := Lts.monitor_step hs
    rw [hrecord]
    exact ih.step hstep

end Steps

/-! ## Batches -/

section Batches
variable {o : Own} {s : State} {r : ℕ → Option Reg} (h : Inv o s r)
include h

/-- What is reported is an event that the sources expect. -/
theorem reports_of_mem (hpc : s.pc ≠ .idle) {reports : List (ℕ × BitVec 32)}
    (hr : Reports s.items reports) {ev : Event} (hev : ev ∈ events s.items reports) :
    (r ev.raw).any (·.reports ev) = true := by
  obtain ⟨flags, item, hp, hitem, hdata, hready⟩ := mem_events.1 hev
  have hreported := hr.2.2 _ hp
  rw [hitem, Option.any_some, decide_eq_true_eq] at hreported
  obtain ⟨hne, hwithin⟩ := hreported
  have hstands := h.stands ev.raw (h.foreign hpc hitem hdata)
  rw [hitem] at hstands
  cases hreg : r ev.raw with
  | none =>
    rw [hreg] at hstands
    cases hstands
  | some reg =>
    rw [hreg] at hstands
    obtain ⟨-, hkey, hevents⟩ := hstands
    have harmed : reg.armed = true := by
      by_contra hna
      rw [hevents, if_neg hna, show reportable EPOLLONESHOT = 0 by decide] at hwithin
      exact hne (by simpa using hwithin.and_eq.symm)
    rw [hevents, if_pos harmed] at hwithin
    have hcases := ready_of_within hne hwithin
    rw [Option.any_some, Reg.reports, harmed, hready]
    simp only [hkey, beq_self_eq_true, Bool.true_and, Bool.and_true, Bool.or_eq_true,
      Bool.and_eq_true]
    tauto

/-- The flags with which the kernel can report an event. -/
def report (ev : Event) : ℕ × BitVec 32 := (ev.raw, flagsOf (ev.ready .read) (ev.ready .write))

/-- An event that the sources expect can be reported. -/
theorem report_ok {ev : Event} (hev : (r ev.raw).any (·.reports ev) = true) :
    ∃ item, s.items ev.raw = some item ∧ item.data ≠ NOTIFY_KEY ∧ (report ev).2 ≠ 0 ∧
      Within (report ev).2 (reportable item.events) ∧
        (⟨ev.raw, item.data.toNat, ready (report ev).2⟩ : Event) = ev := by
  cases hreg : r ev.raw with
  | none => rw [hreg] at hev; cases hev
  | some reg =>
    have hraw : o.Foreign ev.raw := by
      by_contra hown
      cases hreg.symm.trans (h.own ev.raw hown).1
    have hstands := h.stands ev.raw hraw
    rw [hreg] at hstands hev
    rw [Option.any_some, Reg.reports] at hev
    cases hitem : s.items ev.raw with
    | none => rw [hitem] at hstands; cases hstands
    | some item =>
      rw [hitem] at hstands
      obtain ⟨hdata, hkey, hevents⟩ := hstands
      rw [Bool.and_eq_true, Bool.and_eq_true, beq_iff_eq] at hev
      obtain ⟨⟨harmed, hevkey⟩, hready⟩ := hev
      rw [if_pos harmed] at hevents
      obtain ⟨hwithin, hne, hread, hwrite⟩ := within_flagsOf hready
      refine ⟨item, rfl, hdata, hne, by rw [hevents]; exact hwithin, ?_⟩
      obtain ⟨raw, key, rdy⟩ := ev
      have hrdy : ready (report ⟨raw, key, rdy⟩).2 = rdy := by
        funext op
        cases op
        · exact hread
        · exact hwrite
      rw [hrdy, ← hkey]
      exact congrArg (fun k => (⟨raw, k, rdy⟩ : Event)) hevkey.symm

theorem events_report {evs : List Event}
    (hevs : ∀ ev ∈ evs, (r ev.raw).any (·.reports ev) = true) :
    events s.items (evs.map report) = evs := by
  induction evs with
  | nil => rfl
  | cons ev evs ih =>
    obtain ⟨item, hitem, hdata, -, -, hev⟩ := report_ok h (hevs ev List.mem_cons_self)
    have htail := ih fun e he => hevs e (List.mem_cons_of_mem _ he)
    unfold events iter at htail ⊢
    have hitem' : s.items (report ev).1 = some item := hitem
    rw [List.map_cons, List.filterMap_cons_some (by rw [hitem']; rfl), List.filter_cons_of_pos,
      htail]
    · exact congrArg (· :: evs) hev
    · simpa [BitVec.toNat_inj] using hdata

/-- The events that `Poller::wait` can return are the batches that the sources expect, up to
    the length of the list. -/
theorem events_iff (hpc : s.pc ≠ .idle) (evs : List Event) :
    (∃ reports, Reports s.items reports ∧ events s.items reports = evs) ↔
      Batch r evs ∧ evs.length ≤ maxEvents := by
  constructor
  · rintro ⟨reports, hr, rfl⟩
    have hsub := events_sublist s.items reports
    refine ⟨⟨hr.1.sublist hsub, fun ev hev => reports_of_mem h hpc hr hev⟩, ?_⟩
    simpa using hsub.length_le.trans (by simpa using hr.2.1)
  · rintro ⟨⟨hnodup, hevs⟩, hlen⟩
    refine ⟨evs.map report, ⟨?_, by simpa using hlen, fun p hp => ?_⟩, events_report h hevs⟩
    · rw [List.map_map]
      exact hnodup
    · obtain ⟨ev, hev, rfl⟩ := List.mem_map.1 hp
      obtain ⟨item, hitem, -, hne, hwithin, -⟩ := report_ok h (hevs ev hev)
      rw [show s.items (report ev).1 = some item from hitem, Option.any_some, decide_eq_true_eq]
      exact ⟨hne, hwithin⟩

end Batches

/-! ## The sources -/

/-- The calls that succeed on these registrations. -/
def Possible (o : Own) (r : ℕ → Option Reg) : Call → Prop
  | .insert raw => o.Foreign raw ∧ r raw = none
  | .interest raw key _ => r raw ≠ none ∧ key < NOTIFY_KEY.toNat
  | .remove _ => True
  | .wait evs => Batch r evs ∧ evs.length ≤ maxEvents

/-- A run of the poller. -/
abbrev Goes (o : Own) (p p' : State × (ℕ → Option Reg)) : Prop :=
  (recorded o).Runs (fun _ _ => True) p p'

section Goes
variable {o : Own} {p : State × (ℕ → Option Reg)}

theorem goes {a : Act} {s : State} (hs : step o p.1 a = some s) :
    Goes o p (s, record p.2 p.1 a) := by
  refine Lts.Runs.single (a := a) trivial ?_
  simp only [recorded, Lts.monitor, system, hs, Option.map_some]

/-- `wait` comes to `epoll_wait`. -/
theorem goes_armed (hpc : p.1.pc = .idle) : ∃ s, Goes o p (s, p.2) ∧ s.pc = .armed :=
  ⟨_, goes (a := .armTimer) (if_pos hpc), rfl⟩

/-- A call of `wait` that returns. -/
theorem goes_wait (hp : (recorded o).Reachable p) (hpc : p.1.pc = .idle) {evs : List Event}
    (hevs : Batch p.2 evs) (hlen : evs.length ≤ maxEvents) :
    ∃ s, Goes o p (s, apply p.2 (.wait evs)) ∧ s.pc = .idle := by
  obtain ⟨s, harm, harmed⟩ := goes_armed (o := o) hpc
  have hidle : s.pc ≠ .idle := by rw [harmed]; decide
  obtain ⟨reports, hr, rfl⟩ := (events_iff (inv_reach (hp.runs harm)) hidle evs).2 ⟨hevs, hlen⟩
  have hwait := goes (o := o) (a := .wait reports) (p := (s, p.2)) (if_pos ⟨harmed, hr⟩)
  have hevent : step o ⟨disable s.items reports, .waited⟩ .armEvent =
      some ⟨Function.update (disable s.items reports) o.eventFd (some ownItem), .idle⟩ := by
    simp only [step, if_true]
  have hreturn := goes (p := (⟨disable s.items reports, .waited⟩,
    apply p.2 (.wait (events s.items reports)))) hevent
  exact ⟨_, (harm.trans hwait).trans hreturn, rfl⟩

/-- Each possible call is made by the poller. -/
theorem goes_call (hp : (recorded o).Reachable p) (hpc : p.1.pc = .idle) {c : Call}
    (hc : Possible o p.2 c) : ∃ s, Goes o p (s, apply p.2 c) ∧ s.pc = .idle := by
  have h := inv_reach hp
  cases c with
  | insert raw =>
    obtain ⟨hraw, hr⟩ := hc
    have hnone : p.1.items raw = none := by
      have hstands := h.stands raw hraw
      cases hitem : p.1.items raw with
      | none => rfl
      | some item =>
        rw [hitem, hr] at hstands
        cases hstands
    have hs : step o p.1 (.insert raw) =
        some ⟨Function.update p.1.items raw (some ⟨stored EPOLLONESHOT, 0⟩), p.1.pc⟩ := by
      simp only [step, hnone]
    exact ⟨_, goes hs, hpc⟩
  | interest raw key flags =>
    obtain ⟨hsome, hkey⟩ := hc
    have hraw : o.Foreign raw := by
      by_contra hown
      exact hsome (h.own raw hown).1
    have hstands := h.stands raw hraw
    cases hitem : p.1.items raw with
    | none =>
      rw [hitem] at hstands
      exact absurd hstands hsome
    | some item =>
      have hlt : key < 2 ^ 64 := hkey.trans NOTIFY_KEY.isLt
      have htoNat : (BitVec.ofNat 64 key).toNat = key := by
        rw [BitVec.toNat_ofNat, Nat.mod_eq_of_lt hlt]
      have hne : BitVec.ofNat 64 key ≠ NOTIFY_KEY := by
        intro he
        rw [← he, htoNat] at hkey
        exact lt_irrefl _ hkey
      have hs : step o p.1 (.interest raw (BitVec.ofNat 64 key) (flags .read) (flags .write)) =
          some ⟨Function.update p.1.items raw (some ⟨stored (interestFlags (flags .read)
            (flags .write)), BitVec.ofNat 64 key⟩), p.1.pc⟩ := by
        simp only [step, hitem]
        exact if_pos ⟨hne, hraw⟩
      have hflags : directions (flags .read) (flags .write) = flags := by
        funext op
        cases op <;> rfl
      have hgoes := goes hs
      simp only [record, Act.call, htoNat, hflags] at hgoes
      exact ⟨_, hgoes, hpc⟩
  | remove raw =>
    by_cases hr : p.2 raw = none
    · refine ⟨p.1, ?_, hpc⟩
      rw [apply, ← hr, Function.update_eq_self]
    · have hraw : o.Foreign raw := by
        by_contra hown
        exact hr (h.own raw hown).1
      have hstands := h.stands raw hraw
      cases hitem : p.1.items raw with
      | none =>
        rw [hitem] at hstands
        exact absurd hstands hr
      | some item =>
        have hs : step o p.1 (.remove raw) =
            some ⟨Function.update p.1.items raw none, p.1.pc⟩ := by
          simp only [step, hitem]
          exact if_pos hraw
        exact ⟨_, goes hs, hpc⟩
  | wait evs => exact goes_wait hp hpc hc.1 hc.2

end Goes

section Sources
variable {κ W : Type}

/-- The descriptors of the poller are open, so no others are given them; the keys of the slab
    are not `NOTIFY_KEY`; and a batch fits into the list. -/
def Fits (o : Own) (_ : Sources.State κ W) : Sources.Act κ W → Prop
  | .pollerInsert raw => o.Foreign raw
  | .insertIo _ _ key => key < NOTIFY_KEY.toNat
  | .waitEvents evs => evs.length ≤ maxEvents
  | _ => True

instance (o : Own) (s : Sources.State κ W) : DecidablePred (Fits o s)
  | .pollerInsert raw => inferInstanceAs (Decidable (o.Foreign raw))
  | .insertIo _ _ key => inferInstanceAs (Decidable (key < NOTIFY_KEY.toNat))
  | .waitEvents evs => inferInstanceAs (Decidable (evs.length ≤ maxEvents))
  | .removeIo _ | .close _ | .pollReady .. | .react _ | .next | .waitEmpty _
  | .process _ => isTrue trivial

/-- The descriptors registered are open, and the keys are those of the slab. -/
structure Kept (s : Sources.State κ W) : Prop where
  wf : Wf s
  fds : ∀ raw, s.epoll raw ≠ none → raw ∈ s.fds
  keys : ∀ x src, s.source x = some src → src.key < NOTIFY_KEY.toNat

theorem Kept.moves {s s' : Sources.State κ W} (h : Kept s) (hm : Moves s s')
    (he : ∀ raw, s'.epoll raw ≠ none → s.epoll raw ≠ none) : Kept s' where
  wf := h.wf.moves hm
  fds raw hr := by rw [hm.fds]; exact h.fds raw (he raw hr)
  keys x src hx := by
    obtain ⟨src₀, hx₀, -, hkey⟩ := hm.some hx
    rw [← hkey]
    exact h.keys x src₀ hx₀

variable [DecidableEq κ] [DecidableEq W] {o : Own} {s s' : Sources.State κ W}

omit [DecidableEq κ] [DecidableEq W] in
theorem interest_epoll {raw key : ℕ} {flags : Op → Bool} (h : s.interest raw key flags = some s') :
    s.epoll raw ≠ none ∧ s'.epoll = apply s.epoll (.interest raw key flags) := by
  unfold Sources.State.interest at h
  split at h <;> cases h
  next hreg => exact ⟨by rw [hreg]; simp, rfl⟩

theorem apply_interest {r : ℕ → Option Reg} {raw key : ℕ} {flags : Op → Bool}
    (h : r raw ≠ none) (raw' : ℕ) (hr : apply r (.interest raw key flags) raw' ≠ none) :
    r raw' ≠ none := by
  by_cases he : raw' = raw
  · subst he
    exact h
  · rwa [apply, Function.update_of_ne he] at hr

omit [DecidableEq W] in
theorem removeIo_epoll (s : Sources.State κ W) (x : κ) (src : Source W) :
    (s.removeIo x src).source = s.source ∧ (s.removeIo x src).fds = s.fds ∧
      ((s.removeIo x src).epoll = s.epoll ∨
        (s.removeIo x src).epoll = apply s.epoll (.remove src.raw)) := by
  unfold Sources.State.removeIo
  dsimp only
  split
  · exact ⟨rfl, rfl, Or.inl rfl⟩
  · exact ⟨rfl, rfl, Or.inr rfl⟩

/-- What a step of the sources does to their registrations is a call of the poller. -/
theorem sources_call (h : Kept s) {a : Sources.Act κ W} (ha : Fits o s a)
    (hs : Sources.step s a = some s') :
    Kept s' ∧ (s'.epoll = s.epoll ∨ ∃ c, Possible o s.epoll c ∧ s'.epoll = apply s.epoll c) := by
  have same : ∀ {u : Sources.State κ W}, Moves s u → u.epoll = s.epoll →
      Kept u ∧ (u.epoll = s.epoll ∨ ∃ c, Possible o s.epoll c ∧ u.epoll = apply s.epoll c) :=
    fun hm he => ⟨h.moves hm fun _ => by rw [he]; exact id, Or.inl he⟩
  have interested : ∀ {u v : Sources.State κ W} {x : κ} {src : Source W} {flags : Op → Bool},
      s.source x = some src → u.interest src.raw src.key flags = some v → u.epoll = s.epoll →
      Moves s v →
      Kept v ∧ (v.epoll = s.epoll ∨ ∃ c, Possible o s.epoll c ∧ v.epoll = apply s.epoll c) := by
    intro u v x src flags hx hv hu hm
    obtain ⟨hreg, hepoll⟩ := interest_epoll hv
    rw [hu] at hreg hepoll
    refine ⟨h.moves hm fun raw hr => ?_, ?_⟩
    · rw [hepoll] at hr
      exact apply_interest hreg raw hr
    · exact Or.inr ⟨.interest src.raw src.key flags, ⟨hreg, h.keys x src hx⟩, hepoll⟩
  cases Sources.step_cases hs with
  | @pollerInsert raw hraw =>
    have hnone : s.epoll raw = none := by
      by_contra hne
      exact hraw (h.fds raw hne)
    refine ⟨⟨h.wf.pollerInsert hraw, fun raw' hr => ?_, h.keys⟩,
      Or.inr ⟨.insert raw, ⟨ha, hnone⟩, rfl⟩⟩
    by_cases he : raw' = raw
    · exact he ▸ List.mem_cons_self
    · exact List.mem_cons_of_mem _ (h.fds raw' (by simpa [Sources.State.pollerInsert, he] using hr))
  | @insertIo x raw key hraw hx hk =>
    refine ⟨⟨h.wf.insertIo hraw hx hk, h.fds, fun y src hy => ?_⟩, Or.inl rfl⟩
    by_cases hyx : y = x
    · subst hyx
      simp only [Sources.State.insertIo, Sources.State.setSource, Function.update_self,
        Option.some.injEq] at hy
      subst hy
      exact ha
    · exact h.keys y src (by simpa [Sources.State.insertIo, Sources.State.setSource, hyx] using hy)
  | @removeIo x src hx =>
    obtain ⟨hsource, hfds, hepoll⟩ := removeIo_epoll s x src
    have hkeys : ∀ y src', (s.removeIo x src).source y = some src' →
        src'.key < NOTIFY_KEY.toNat := by rw [hsource]; exact h.keys
    obtain he | he := hepoll
    · exact ⟨⟨h.wf.removeIo hx, by rw [hfds, he]; exact h.fds, hkeys⟩, Or.inl he⟩
    · refine ⟨⟨h.wf.removeIo hx, fun raw hr => ?_, hkeys⟩,
        Or.inr ⟨.remove src.raw, trivial, he⟩⟩
      rw [hfds]
      rw [he] at hr
      by_cases hraw : raw = src.raw
      · subst hraw; simp [apply] at hr
      · exact h.fds raw (by simpa [apply, hraw] using hr)
  | @close x src hx hr hc =>
    refine ⟨⟨h.wf.close hx hr hc, fun raw hr => ?_, h.keys⟩,
      Or.inr ⟨.remove src.raw, trivial, rfl⟩⟩
    by_cases he : raw = src.raw
    · subst he; simp at hr
    · exact (List.mem_erase_of_ne he).2 (h.fds raw (by simpa [he] using hr))
  | pollReady hx _ hs =>
    have hm := moves_pollReady h.wf hx hs
    obtain ⟨src', hp, ⟨-, rfl⟩ | ⟨-, ⟨-, rfl⟩ | ⟨-, hint⟩ | ⟨-, rfl⟩⟩⟩ := pollReady_cases hs
    · exact same hm rfl
    · exact same hm rfl
    · exact interested hx hint rfl hm
    · exact same hm rfl
  | react => exact same ⟨rfl, rfl, rfl, rfl, rfl, fun _ => rfl, fun hn => absurd rfl hn⟩ rfl
  | next hs => exact same (moves_reactStep h.wf hs) (reactStep_same hs).epoll
  | @waitEvents evs tick hr hevs =>
    refine ⟨h.moves ⟨rfl, rfl, rfl, rfl, rfl, fun _ => rfl, fun _ => ⟨tick, Or.inl rfl⟩⟩
      fun raw hraw => ?_, Or.inr ⟨.wait evs, ⟨hevs, ha⟩, rfl⟩⟩
    intro hnone
    simp [hnone] at hraw
  | waitEmpty hr =>
    have hbatch := h.wf.batch
    rw [hr] at hbatch
    exact same ⟨rfl, rfl, rfl, rfl, rfl, fun _ => rfl, fun hn => by simpa using hbatch hn⟩ rfl
  | process hs =>
    have hm := moves_process hs
    obtain ⟨tick, ev, rest, -, -, ⟨-, rfl⟩ | ⟨x, src, -, hx, ⟨-, rfl⟩ | ⟨-, hint⟩ | ⟨-, -, rfl⟩⟩⟩ :=
      process_cases hs
    · exact same hm rfl
    · exact same hm rfl
    · exact interested hx hint rfl hm
    · exact same hm rfl

/-- The registrations of the sources are those of the poller. -/
structure On (s : Sources.State κ W) (p : State × (ℕ → Option Reg)) : Prop where
  epoll : p.2 = s.epoll
  kept : Kept s
  idle : p.1.pc = .idle

theorem on_reach (h : Sources.system.Reach (Fits o) s) :
    ∃ p, (recorded o).Reachable p ∧ On s p := by
  refine h.simulate (fun s hs => ?_) fun s a s' p hp hon ha hs => ?_
  · refine ⟨(new o, fun _ => none), ⟨rfl, rfl⟩, ?_⟩
    rw [show s = Sources.init from hs]
    exact ⟨rfl, ⟨wf_init, fun raw hr => absurd rfl hr, fun x src hx => by cases hx⟩, rfl⟩
  · obtain ⟨hkept, he | ⟨c, hc, he⟩⟩ := sources_call hon.kept ha hs
    · exact ⟨p, .refl, hon.epoll.trans he.symm, hkept, hon.idle⟩
    · obtain ⟨q, hgo, hidle⟩ := goes_call hp hon.idle (hon.epoll ▸ hc)
      exact ⟨_, hgo, by rw [he, hon.epoll], hkept, hidle⟩

/-- **The model of the kernel is exact.** In every state that the sources reach with keys of the
    slab below `NOTIFY_KEY`, the poller can be in `epoll_wait` with the registrations that the
    sources have; and whenever it is, whichever calls of the poller have led there, the
    flags that they have passed to epoll are such that `Poller::wait` can return exactly
    the batches that the sources accept and that fit into its list. -/
theorem events_exact (h : Sources.system.Reach (Fits o) s) :
    (∃ p, (recorded o).Reachable (p, s.epoll) ∧ p.pc = .armed) ∧
    ∀ p, (recorded o).Reachable (p, s.epoll) → p.pc = .armed → ∀ evs : List Event,
      (∃ reports, Reports p.items reports ∧ events p.items reports = evs) ↔
        Batch s.epoll evs ∧ evs.length ≤ maxEvents := by
  obtain ⟨⟨p, r⟩, hp, hepoll, -, hidle⟩ := on_reach h
  obtain rfl : r = s.epoll := hepoll
  obtain ⟨q, hgo, hpc⟩ := goes_armed (o := o) hidle
  refine ⟨⟨q, hp.runs hgo, hpc⟩, fun q hq hqpc => ?_⟩
  exact events_iff (inv_reach hq) (by rw [hqpc]; decide)

/-- A task waits to write to the descriptor `5`. -/
def waitWrite : List (Sources.Act (Fin 1) ℕ) :=
  [.pollerInsert 5, .insertIo 0 5 3, .pollReady 0 .write 7 true]

/-- The poller has `3` and `4` itself. -/
def own : Own := ⟨3, 4, by decide⟩

/-- The calls of the poller in it, and the beginning of `wait`. -/
def armedRun : List Act := [.insert 5, .interest 5 3 false true, .armTimer]

/-- The timer goes off, and `5` is ready. -/
def timerReports : List (ℕ × BitVec 32) := [(4, EPOLLIN), (5, EPOLLOUT)]

theorem events_exact_write : ∃ (s : Sources.State (Fin 1) ℕ) (p : State),
    Sources.system.run Sources.init waitWrite = some s ∧
      (recorded own).Reachable (p, s.epoll) ∧ p.pc = .armed ∧ Reports p.items timerReports ∧
      events p.items timerReports = [⟨5, 3, directions false true⟩] ∧
      Batch s.epoll [⟨5, 3, directions false true⟩] := by
  have hm : Sources.system.Meets (Fits own) (Sources.init : Sources.State (Fin 1) ℕ) waitWrite := by
    decide +kernel
  obtain ⟨s, hs⟩ : ∃ s : Sources.State (Fin 1) ℕ,
    Sources.system.run Sources.init waitWrite = some s := ⟨_, rfl⟩
  obtain ⟨⟨p, r⟩, hp, hr, hpc⟩ : ∃ p, (recorded own).run (new own, fun _ => none) armedRun = some p ∧
      Reports p.1.items timerReports ∧ p.1.pc = .armed := Lts.exists_run (by decide +kernel)
  have hevents : events p.items timerReports = [⟨5, 3, directions false true⟩] := by
    have hready : ready EPOLLOUT = directions false true := by
      funext op
      cases op <;> decide
    rw [← hready]
    cases hp
    rfl
  obtain rfl : r = s.epoll := by
    cases hs
    cases hp
    refine congrArg (fun flags => Function.update (Function.update (fun _ => none) 5
      (some (⟨true, fun _ => false, 0⟩ : Reg))) 5 (some ⟨true, flags, 3⟩)) ?_
    funext op
    cases op <;> rfl
  have hreach : (recorded own).Reachable (p, s.epoll) :=
    .run (s := (new own, fun _ => none)) (.init ⟨rfl, rfl⟩) (Lts.meets_true _ armedRun) hp
  obtain ⟨hbatch, -⟩ := ((events_exact (.run (.init rfl) hm hs)).2 p hreach hpc _).1
    ⟨timerReports, hr, hevents⟩
  exact ⟨s, p, hs, hreach, hpc, hr, hevents, hbatch⟩

end Sources

end Awak.Epoll
