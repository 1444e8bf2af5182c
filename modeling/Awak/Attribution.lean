/-
  Which source an event is delivered to, in `react` of `io/reactor.rs`.

  `Reports` watches the registrations in epoll: each `EPOLL_CTL_ADD` of a descriptor is a
  new registration, which becomes that of a source when `insert_io` has stored it, and each
  event of a batch is reported for the registration its descriptor has at that time.
  `Attributed` says that `react` marks and wakes a source only for events of its own
  registration, with what that means for `TcpStream::connect_addr` of `net/tcp/stream.rs`.

  The key of an event is looked up when `react` has locked `sources`, some time after
  `wait` has returned:

  * `events_attributed`: events reach their source while no source is removed in
    between whose key is in the batch, no source is removed twice, and no descriptor is
    reported before its first interest, when it still has the placeholder key `0`;
  * `event_misattributed`: a batch that outlives its source, and a hang-up of a new
    descriptor, both wake a source which nothing was reported for.
-/
import Awak.Readiness

namespace Awak.Sources

variable {κ W ε : Type}

/-- The registrations in epoll, by number. -/
structure Reports (κ : Type) where
  /-- the registrations so far -/
  count : ℕ
  /-- the last registration of a descriptor -/
  reg : ℕ → ℕ
  /-- the source of a registration -/
  owner : ℕ → Option κ
  /-- the registration that the event of the batch for a descriptor was reported for -/
  origin : ℕ → ℕ
  /-- the directions reported for a registration -/
  seen : ℕ → Op → Bool

/-- Nothing is registered. -/
def Reports.new : Reports κ := ⟨0, fun _ => 0, fun _ => none, fun _ => 0, fun _ _ => false⟩

/-- `poller.insert` begins a registration, `insert_io` gives it to a source, and a batch of epoll is
    of the registrations at that moment. -/
def Reports.record (g : Reports κ) (_ : State κ W) : Act κ W → Reports κ
  | .pollerInsert raw =>
    { g with count := g.count + 1, reg := Function.update g.reg raw (g.count + 1) }
  | .insertIo x raw _ => { g with owner := Function.update g.owner (g.reg raw) (some x) }
  | .waitEvents evs => { g with
      origin := g.reg
      seen := fun n op => g.seen n op || evs.any fun ev => g.reg ev.raw == n && ev.ready op }
  | _ => g

/-- The kernel has reported the direction for the registration of the source. -/
def Reports.Has (g : Reports κ) (x : κ) (op : Op) : Prop :=
  ∃ n, g.owner n = some x ∧ g.seen n op = true

/-- The sources, with the registrations. -/
def tracked [DecidableEq κ] [DecidableEq W] : Lts (State κ W × Reports κ) (Act κ W) :=
  system.monitor .new .record

/-- `TcpStream::connect_addr` once the socket is registered: `stream.writable().await?`, then
    `take_error`. -/
def connectAddr (writable : Poll (Except ε Unit)) (takeError : Except ε (Option ε)) :
    Poll (Except ε Unit) :=
  match writable with
  | .pending => .pending
  | .ready (.error e) => .ready (.error e)
  | .ready (.ok _) =>
    match takeError with
    | .error e => .ready (.error e)
    | .ok none => .ready (.ok ())
    | .ok (some e) => .ready (.error e)

/-- Events are attributed to the right source. -/
structure Attributed [DecidableEq W] (p : State κ W × Reports κ) : Prop where
  /-- the event that `react` processes next is for the source it finds -/
  event : ∀ tick ev rest x, p.1.reacting = .loop tick → p.1.batch = ev :: rest →
    p.1.slab ev.key = some x → p.2.owner (p.2.origin ev.raw) = some x
  /-- a source is marked only for a direction that was reported for it -/
  tick : ∀ x src op, p.1.source x = some src → (src.states op).tick ≠ 0 → p.2.Has x op
  /-- `connect_addr` returns `Ok` only after its socket was reported -/
  connect : ∀ x src waker (res : Except IoError Unit) takeError, p.1.source x = some src →
    connectAddr (src.pollReady p.1.ticker .write waker res).answer takeError = .ready (.ok ()) →
      p.2.Has x .write

/-- The events of a call of `react` that has not yet locked `sources`. -/
def State.unlocked (s : State κ W) : List Event :=
  match s.reacting with
  | .batch _ => s.batch
  | _ => []

/-- A source is removed once, and not while the batch of a `react` that is yet to lock `sources`
    has an event with its key; a descriptor is reported only once it has an interest. -/
def Attributable (p : State κ W × Reports κ) : Act κ W → Prop
  | .removeIo x => p.1.removed x = false ∧
    ∀ src ∈ p.1.source x, ∀ ev ∈ p.1.unlocked, ev.key ≠ src.key
  | .waitEvents evs => ∀ ev ∈ evs, ∀ reg ∈ p.1.epoll ev.raw,
    reg.flags .read = true ∨ reg.flags .write = true
  | _ => True

instance (p : State κ W × Reports κ) : ∀ a, Decidable (Attributable p a)
  | .removeIo x => inferInstanceAs (Decidable (p.1.removed x = false ∧
      ∀ src ∈ p.1.source x, ∀ ev ∈ p.1.unlocked, ev.key ≠ src.key))
  | .waitEvents evs => inferInstanceAs (Decidable (∀ ev ∈ evs, ∀ reg ∈ p.1.epoll ev.raw,
      reg.flags .read = true ∨ reg.flags .write = true))
  | .pollerInsert _ | .insertIo _ _ _ | .close _ | .pollReady _ _ _ _ | .react _ | .next
  | .waitEmpty _ | .process _ => isTrue trivial

/-! ## The registrations of the sources -/

/-- A source in the slab with its registration. -/
structure Owned (p : State κ W × Reports κ) (x : κ) (src : Source W) : Prop where
  source : p.1.source x = some src
  slab : p.1.slab src.key = some x
  owner : p.2.owner (p.2.reg src.raw) = some x

/-- What the record says of the state: the live sources own the registrations of their
    descriptors. -/
structure Tracked (p : State κ W × Reports κ) : Prop where
  reg : ∀ raw, p.2.reg raw ≤ p.2.count
  owner : ∀ n x, p.2.owner n = some x → n ≤ p.2.count
  adding : ∀ raw ∈ p.1.adding, p.2.owner (p.2.reg raw) = none
  inj : ∀ raw ∈ p.1.adding, ∀ raw' ∈ p.1.adding, p.2.reg raw = p.2.reg raw' → raw = raw'
  live : ∀ x src, p.1.source x = some src → p.1.removed x = false → Owned p x src
  /-- a descriptor with an interest has the key of its source -/
  epoll : ∀ raw reg, p.1.epoll raw = some reg → reg.flags .read = true ∨ reg.flags .write = true →
    ∃ x src, Owned p x src ∧ src.raw = raw ∧ src.key = reg.key
  batch : ∀ ev ∈ p.1.batch, ∃ x, p.1.slab ev.key = some x ∧
    p.2.owner (p.2.origin ev.raw) = some x ∧
      ∀ op, ev.ready op = true → p.2.seen (p.2.origin ev.raw) op = true
  tick : ∀ x src op, p.1.source x = some src → (src.states op).tick ≠ 0 → p.2.Has x op
  /-- the remembered ticks of a source that was never marked -/
  unmarked : ∀ x src op a b, p.1.source x = some src → (src.states op).tick = 0 →
    (src.states op).ticks = some (a, b) → b = 0

theorem tracked_init : Tracked ((init, .new) : State κ W × Reports κ) := by
  constructor <;> simp [init, Reports.new]

/-- A step that changes only which events are left, what is armed and how far `react` is. -/
theorem Tracked.frame {s s' : State κ W} {g : Reports κ} (h : Tracked (s, g))
    (hsource : s'.source = s.source) (hslab : s'.slab = s.slab) (hadding : s'.adding = s.adding)
    (hremoved : s'.removed = s.removed) (hbatch : ∀ ev ∈ s'.batch, ev ∈ s.batch)
    (hepoll : ∀ raw reg', s'.epoll raw = some reg' →
      ∃ reg, s.epoll raw = some reg ∧ reg.flags = reg'.flags ∧ reg.key = reg'.key) :
    Tracked (s', g) := by
  have howned : ∀ x src, Owned (s, g) x src → Owned (s', g) x src := by
    intro x src ho
    exact ⟨by rw [hsource]; exact ho.source, by rw [hslab]; exact ho.slab, ho.owner⟩
  refine ⟨h.reg, h.owner, ?_, ?_, fun x src hx hr => ?_, fun raw reg' hreg hf => ?_, fun ev hev => ?_,
    ?_, ?_⟩
  · rw [hadding]; exact h.adding
  · rw [hadding]; exact h.inj
  · rw [hsource] at hx
    rw [hremoved] at hr
    exact howned x src (h.live x src hx hr)
  · obtain ⟨reg, hreg, hflags, hkey⟩ := hepoll raw reg' hreg
    rw [← hflags] at hf
    obtain ⟨x, src, ho, hr, hk⟩ := h.epoll raw reg hreg hf
    exact ⟨x, src, howned x src ho, hr, hk.trans hkey⟩
  · rw [hslab]; exact h.batch ev (hbatch ev hev)
  · rw [hsource]; exact h.tick
  · rw [hsource]; exact h.unmarked

section Steps
variable [DecidableEq κ]

/-- A source in the slab changes its states. -/
theorem Tracked.updates {s s' : State κ W} {g : Reports κ} (h : Tracked (s, g)) {x : κ}
    {src src' : Source W} (ho : Owned (s, g) x src) (hu : Updates s s' x src')
    (hraw : src'.raw = src.raw) (hkey : src'.key = src.key)
    (hbatch : ∀ ev ∈ s'.batch, ev ∈ s.batch)
    (htick : ∀ op, (src'.states op).tick ≠ 0 → g.Has x op)
    (hunmarked : ∀ op a b, (src'.states op).tick = 0 → (src'.states op).ticks = some (a, b) →
      b = 0) : Tracked (s', g) := by
  have hx : s.source x = some src := ho.source
  have hsrc : ∀ y src₁, s'.source y = some src₁ →
      y = x ∧ src₁ = src' ∨ y ≠ x ∧ s.source y = some src₁ := by
    intro y src₁ hy
    rw [hu.source] at hy
    by_cases hyx : y = x
    · subst hyx
      rw [Function.update_self] at hy
      exact Or.inl ⟨rfl, (Option.some_inj.1 hy).symm⟩
    · rw [Function.update_of_ne hyx] at hy
      exact Or.inr ⟨hyx, hy⟩
  have howned : ∀ y src₁, Owned (s, g) y src₁ →
      ∃ src₂, Owned (s', g) y src₂ ∧ src₂.raw = src₁.raw ∧ src₂.key = src₁.key := by
    intro y src₁ ho₁
    by_cases hyx : y = x
    · subst hyx
      have hsame : src₁ = src := Option.some_inj.1 (ho₁.source.symm.trans hx)
      subst hsame
      refine ⟨src', ⟨?_, ?_, ?_⟩, hraw, hkey⟩
      · show s'.source y = some src'
        rw [hu.source, Function.update_self]
      · rw [hu.slab, hkey]; exact ho₁.slab
      · rw [hraw]; exact ho₁.owner
    · refine ⟨src₁, ⟨?_, by rw [hu.slab]; exact ho₁.slab, ho₁.owner⟩, rfl, rfl⟩
      show s'.source y = some src₁
      rw [hu.source, Function.update_of_ne hyx]; exact ho₁.source
  have hold : ∀ raw reg, s'.epoll raw = some reg →
      s.epoll raw = some reg ∨ src.raw = raw ∧ src.key = reg.key := by
    intro raw reg hreg
    rcases hu.epoll with he | ⟨flags, he⟩
    · exact Or.inl (he ▸ hreg)
    · rw [he] at hreg
      by_cases hr : raw = src'.raw
      · subst hr
        rw [Function.update_self, Option.some_inj] at hreg
        subst hreg
        exact Or.inr ⟨hraw.symm, hkey.symm⟩
      · rw [Function.update_of_ne hr] at hreg
        exact Or.inl hreg
  refine ⟨h.reg, h.owner, ?_, ?_, fun y src₁ hy hr => ?_, fun raw reg hreg hf => ?_, fun ev hev => ?_,
    fun y src₁ op hy ht => ?_, fun y src₁ op a b hy ht hab => ?_⟩
  · rw [hu.adding]; exact h.adding
  · rw [hu.adding]; exact h.inj
  · rw [hu.removed] at hr
    obtain ⟨src₀, hy₀⟩ : ∃ src₀, s.source y = some src₀ := by
      rcases hsrc y src₁ hy with ⟨rfl, -⟩ | ⟨-, hy⟩
      · exact ⟨src, hx⟩
      · exact ⟨src₁, hy⟩
    obtain ⟨src₂, ho, -, -⟩ := howned y src₀ (h.live y src₀ hy₀ hr)
    have hsame : src₁ = src₂ := Option.some_inj.1 (hy.symm.trans ho.source)
    rw [hsame]; exact ho
  · -- the registration is that of before, or the interest of `x` was renewed
    rcases hold raw reg hreg with hreg | ⟨rfl, hk⟩
    · obtain ⟨y, src₁, ho₁, hr, hk⟩ := h.epoll raw reg hreg hf
      obtain ⟨src₂, ho₂, hr₂, hk₂⟩ := howned y src₁ ho₁
      exact ⟨y, src₂, ho₂, hr₂.trans hr, hk₂.trans hk⟩
    · obtain ⟨src₂, ho₂, hr₂, hk₂⟩ := howned x src ho
      exact ⟨x, src₂, ho₂, hr₂, hk₂.trans hk⟩
  · rw [hu.slab]; exact h.batch ev (hbatch ev hev)
  · rcases hsrc y src₁ hy with ⟨rfl, rfl⟩ | ⟨-, hy⟩
    · exact htick op ht
    · exact h.tick y src₁ op hy ht
  · rcases hsrc y src₁ hy with ⟨rfl, rfl⟩ | ⟨-, hy⟩
    · exact hunmarked op a b ht hab
    · exact h.unmarked y src₁ op a b hy ht hab

theorem Tracked.poll [DecidableEq W] {s s' : State κ W} {g : Reports κ} (h : Tracked (s, g)) {x : κ}
    {src : Source W} (hx : s.source x = some src) (hr : s.removed x = false) {op : Op} {w : W}
    {ok : Bool} (hs : s.pollReady x src op w ok = some s') : Tracked (s', g) := by
  obtain ⟨res, hu, -, hb⟩ := updates_pollReady hs
  have hticks : ∀ op', ((src.pollReady s.ticker op w res).source.states op').tick =
      (src.states op').tick := by
    intro op'
    by_cases hop : op' = op
    · subst hop
      rw [pollReady_dir]
      split_ifs <;> rfl
    · rw [pollReady_other hop]
  refine h.updates (h.live x src hx hr) hu pollReady_raw pollReady_key (by rw [hb]; exact fun _ => id)
    (fun op' ht => h.tick x src op' hx (hticks op' ▸ ht)) fun op' a b ht hab => ?_
  rw [hticks] at ht
  by_cases hop : op' = op
  · subst hop
    rw [pollReady_dir] at hab
    split_ifs at hab
    -- the second tick recorded is that of the source
    cases hd : (src.states op').ticks with
    | none =>
      simp only [Dir.store, hd, Option.isNone_none, if_true, Option.some.injEq,
        Prod.mk.injEq] at hab
      rw [← hab.2]; exact ht
    | some ab =>
      simp only [Dir.store, hd, Option.isNone_some, Bool.false_eq_true, if_false] at hab
      exact h.unmarked x src op' a b hx ht (hd.trans hab)
  · rw [pollReady_other hop] at hab
    exact h.unmarked x src op' a b hx ht hab

theorem Tracked.process {s s' : State κ W} {g : Reports κ} (h : Tracked (s, g)) (hw : Wf s)
    {ok : Bool} (hs : s.process ok = some s') : Tracked (s', g) := by
  obtain ⟨tick, ev, rest, -, hb, hrest, -, ⟨-, rfl⟩ | ⟨x, src, hk, hx, hu⟩⟩ := updates_process hs
  · refine h.frame rfl rfl rfl rfl (fun e he => ?_) fun raw reg hreg => ⟨reg, hreg, rfl, rfl⟩
    rw [hb]; exact List.mem_cons_of_mem _ he
  · obtain ⟨y, hy, howner, hseen⟩ := h.batch ev (by rw [hb]; exact List.mem_cons_self)
    have hyx : y = x := Option.some_inj.1 (hy.symm.trans hk)
    subst hyx
    refine h.updates (h.live y src hx (hw.slab _ _ hk).1) hu rfl rfl (fun e he => ?_)
      (fun op ht => ?_) fun op a b ht hab => ?_
    · rw [hb]; exact List.mem_cons_of_mem _ (hrest e he)
    · by_cases hop : ev.ready op = true
      · exact ⟨_, howner, hseen op hop⟩
      · exact h.tick y src op hx (by simpa [Source.drained, hop] using ht)
    · by_cases hop : ev.ready op = true
      · simp [Source.drained, hop] at ht
      · exact h.unmarked y src op a b hx (by simpa [Source.drained, hop] using ht)
          (by simpa [Source.drained, hop] using hab)

theorem Tracked.insertIo {s : State κ W} {g : Reports κ} (h : Tracked (s, g)) {x : κ} {raw key : ℕ}
    (hw : Wf s) (hraw : raw ∈ s.adding) (hx : s.source x = none) (hk : s.slab key = none) :
    Tracked (s.insertIo x raw key,
      { g with owner := Function.update g.owner (g.reg raw) (some x) }) := by
  have hnone : g.owner (g.reg raw) = none := h.adding raw hraw
  have howner : ∀ n y, g.owner n = some y → Function.update g.owner (g.reg raw) (some x) n = some y := by
    intro n y hn
    have hne : n ≠ g.reg raw := by
      rintro rfl
      rw [hnone] at hn; cases hn
    rw [Function.update_of_ne hne]; exact hn
  have hslab : ∀ k y, s.slab k = some y → (s.insertIo x raw key).slab k = some y := by
    intro k y hy
    have hne : k ≠ key := by
      rintro rfl
      rw [hk] at hy; cases hy
    simpa [State.insertIo, hne] using hy
  have hsource : ∀ y, y ≠ x → (s.insertIo x raw key).source y = s.source y := by
    intro y hyx
    simp [State.insertIo, State.setSource, hyx]
  have hself : (s.insertIo x raw key).source x = some ⟨raw, key, fun _ => ⟨[], 0, none⟩⟩ := by
    simp [State.insertIo, State.setSource]
  have howned : ∀ y src, Owned (s, g) y src → Owned (s.insertIo x raw key,
      { g with owner := Function.update g.owner (g.reg raw) (some x) }) y src := by
    intro y src ho
    have hyx : y ≠ x := by
      rintro rfl
      have hy := ho.source
      dsimp only at hy
      rw [hx] at hy; cases hy
    exact ⟨(hsource y hyx).trans ho.source, hslab _ _ ho.slab, howner _ _ ho.owner⟩
  refine ⟨h.reg, fun n y hn => ?_, fun r hr => ?_, fun r hr r' hr' => ?_, fun y src hy hrem => ?_,
    fun r reg hreg hf => ?_, fun ev hev => ?_, fun y src op hy ht => ?_, fun y src op a b hy ht hab => ?_⟩
  · by_cases hne : n = g.reg raw
    · rw [hne]; exact h.reg raw
    · exact h.owner n y (by simpa [hne] using hn)
  · obtain ⟨hne, hmem⟩ := hw.adding.mem_erase_iff.1 hr
    have hreg : g.reg r ≠ g.reg raw := fun he => hne (h.inj r hmem raw hraw he)
    show Function.update g.owner (g.reg raw) (some x) (g.reg r) = none
    rw [Function.update_of_ne hreg]
    exact h.adding r hmem
  · exact h.inj r (List.mem_of_mem_erase hr) r' (List.mem_of_mem_erase hr')
  · by_cases hyx : y = x
    · subst hyx
      rw [hself] at hy
      cases hy
      refine ⟨hself, ?_, ?_⟩
      · simp [State.insertIo]
      · simp
    · rw [hsource y hyx] at hy
      exact howned y src (h.live y src hy hrem)
  · obtain ⟨y, src, ho, hr, hkey⟩ := h.epoll r reg hreg hf
    exact ⟨y, src, howned y src ho, hr, hkey⟩
  · obtain ⟨y, hy, ho, hseen⟩ := h.batch ev hev
    exact ⟨y, hslab _ _ hy, howner _ _ ho, hseen⟩
  · by_cases hyx : y = x
    · subst hyx
      rw [hself] at hy
      cases hy
      exact absurd rfl ht
    · rw [hsource y hyx] at hy
      obtain ⟨n, ho, hseen⟩ := h.tick y src op hy ht
      exact ⟨n, howner n y ho, hseen⟩
  · by_cases hyx : y = x
    · subst hyx
      rw [hself] at hy
      cases hy
      cases hab
    · rw [hsource y hyx] at hy
      exact h.unmarked y src op a b hy ht hab

theorem Tracked.removeIo {s : State κ W} {g : Reports κ} (h : Tracked (s, g)) (hw : Wf s) {x : κ}
    {src : Source W} (hx : s.source x = some src) (hrem : s.removed x = false)
    (hlock : s.reacting.locked = false) (hbatch : ∀ ev ∈ s.unlocked, ev.key ≠ src.key) :
    Tracked (s.removeIo x src, g) := by
  have hk : s.slab src.key = some x := (h.live x src hx hrem).slab
  have he : s.removeIo x src = { s with
      removed := Function.update s.removed x true
      slab := Function.update s.slab src.key none
      epoll := Function.update s.epoll src.raw none } := by
    simp [State.removeIo, hk]
  have howned : ∀ y src', y ≠ x → Owned (s, g) y src' → Owned (s.removeIo x src, g) y src' := by
    intro y src' hyx ho
    have hne : src'.key ≠ src.key := by
      intro hkey
      have hslab := ho.slab
      rw [hkey] at hslab
      exact hyx (Option.some_inj.1 (hslab.symm.trans hk))
    rw [he]
    refine ⟨ho.source, ?_, ho.owner⟩
    show Function.update s.slab src.key none src'.key = some y
    rw [Function.update_of_ne hne]; exact ho.slab
  have hkeys : ∀ ev ∈ s.batch, ev.key ≠ src.key := by
    intro ev hev
    obtain ⟨tick, hr | hr⟩ := hw.batch (List.ne_nil_of_mem hev)
    · exact hbatch ev (by simpa [State.unlocked, hr] using hev)
    · rw [hr] at hlock; cases hlock
  rw [he] at howned ⊢
  refine ⟨h.reg, h.owner, h.adding, h.inj, fun y src' hy hr => ?_, fun raw reg hreg hf => ?_,
    fun ev hev => ?_, h.tick, h.unmarked⟩
  · have hyx : y ≠ x := by
      rintro rfl
      simp at hr
    exact howned y src' hyx (h.live y src' hy (by simpa [hyx] using hr))
  · have hne : raw ≠ src.raw := by
      rintro rfl
      simp at hreg
    obtain ⟨y, src', ho, hr, hkey⟩ := h.epoll raw reg (by simpa [hne] using hreg) hf
    have hyx : y ≠ x := by
      rintro rfl
      have hsame : src' = src := Option.some_inj.1 (ho.source.symm.trans hx)
      rw [hsame] at hr
      exact hne hr.symm
    exact ⟨y, src', howned y src' hyx ho, hr, hkey⟩
  · obtain ⟨y, hy, ho, hseen⟩ := h.batch ev hev
    refine ⟨y, ?_, ho, hseen⟩
    show Function.update s.slab src.key none ev.key = some y
    rw [Function.update_of_ne (hkeys ev hev)]; exact hy

omit [DecidableEq κ] in
theorem Tracked.pollerInsert {s : State κ W} {g : Reports κ} (h : Tracked (s, g)) (hw : Wf s)
    {raw : ℕ} (hraw : raw ∉ s.fds) :
    Tracked (s.pollerInsert raw,
      { g with count := g.count + 1, reg := Function.update g.reg raw (g.count + 1) }) := by
  have hreg : ∀ r, r ≠ raw → Function.update g.reg raw (g.count + 1) r = g.reg r :=
    fun r hr => Function.update_of_ne hr _ _
  have hadding : ∀ r ∈ s.adding, r ≠ raw := by
    rintro r hr rfl
    exact hraw (hw.subset hr)
  have hnone : g.owner (g.count + 1) = none := by
    cases ho : g.owner (g.count + 1) with
    | none => rfl
    | some x => exact absurd (h.owner _ x ho) (by simp)
  have hlt : ∀ r, g.reg r ≠ g.count + 1 := by
    intro r hr
    have := h.reg r
    dsimp only at this
    omega
  have howned : ∀ y src, src.raw ≠ raw → Owned (s, g) y src → Owned (s.pollerInsert raw,
      { g with count := g.count + 1, reg := Function.update g.reg raw (g.count + 1) }) y src := by
    intro y src hne ho
    refine ⟨ho.source, ho.slab, ?_⟩
    show g.owner (Function.update g.reg raw (g.count + 1) src.raw) = some y
    rw [hreg _ hne]; exact ho.owner
  refine ⟨fun r => ?_, fun n x hn => (h.owner n x hn).trans (Nat.le_succ _), fun r hr => ?_,
    fun r hr r' hr' he => ?_, fun x src hx hrem => ?_, fun r reg hr hf => ?_, h.batch, h.tick,
    h.unmarked⟩
  · by_cases hr : r = raw
    · subst hr; simp
    · show Function.update g.reg raw (g.count + 1) r ≤ g.count + 1
      rw [hreg r hr]; exact (h.reg r).trans (Nat.le_succ _)
  · show g.owner (Function.update g.reg raw (g.count + 1) r) = none
    rcases List.mem_cons.1 hr with rfl | hr
    · rw [Function.update_self]; exact hnone
    · rw [hreg r (hadding r hr)]; exact h.adding r hr
  · -- the new registration has a number of its own
    replace he : Function.update g.reg raw (g.count + 1) r =
      Function.update g.reg raw (g.count + 1) r' := he
    rcases List.mem_cons.1 hr with hm | hm <;> rcases List.mem_cons.1 hr' with hm' | hm'
    · rw [hm, hm']
    · rw [hm, Function.update_self, hreg r' (hadding r' hm')] at he
      exact absurd he.symm (hlt r')
    · rw [hm', Function.update_self, hreg r (hadding r hm)] at he
      exact absurd he (hlt r)
    · rw [hreg r (hadding r hm), hreg r' (hadding r' hm')] at he
      exact h.inj r hm r' hm' he
  · have hopen : s.closed x = false := by
      by_contra hc
      rw [Bool.not_eq_false] at hc
      exact absurd (hrem.symm.trans (hw.closed x hc)) (by decide)
    refine howned x src ?_ (h.live x src hx hrem)
    rintro rfl
    exact hraw (hw.fds x src hx hopen).1
  · have hne : r ≠ raw := by
      rintro rfl
      have hreg' : reg = ⟨true, fun _ => false, 0⟩ := by simpa [State.pollerInsert] using hr.symm
      subst hreg'
      simp at hf
    obtain ⟨x, src, ho, hr', hkey⟩ := h.epoll r reg (by simpa [State.pollerInsert, hne] using hr) hf
    exact ⟨x, src, howned x src (by rw [hr']; exact hne) ho, hr', hkey⟩

omit [DecidableEq κ] in
/-- `wait` returns a batch of descriptors that have an interest. -/
theorem Tracked.waitEvents {s : State κ W} {g : Reports κ} (h : Tracked (s, g)) {evs : List Event}
    {epoll : ℕ → Option Reg} {reacting : ReactPc} (hevs : Batch s.epoll evs)
    (hflags : ∀ ev ∈ evs, ∀ reg ∈ s.epoll ev.raw, reg.flags .read = true ∨ reg.flags .write = true)
    (hepoll : ∀ raw reg', epoll raw = some reg' →
      ∃ reg, s.epoll raw = some reg ∧ reg.flags = reg'.flags ∧ reg.key = reg'.key) :
    Tracked ({ s with epoll := epoll, reacting := reacting, batch := evs },
      { g with
        origin := g.reg
        seen := fun n op => g.seen n op || evs.any fun ev => g.reg ev.raw == n && ev.ready op }) := by
  have h' : Tracked ({ s with epoll := epoll, reacting := reacting, batch := [] }, g) :=
    h.frame rfl rfl rfl rfl (by simp) hepoll
  have howned : ∀ x src, Owned ({ s with epoll := epoll, reacting := reacting, batch := [] }, g) x src →
      Owned ({ s with epoll := epoll, reacting := reacting, batch := evs }, { g with
        origin := g.reg
        seen := fun n op => g.seen n op || evs.any fun ev => g.reg ev.raw == n && ev.ready op })
          x src :=
    fun x src ho => ⟨ho.source, ho.slab, ho.owner⟩
  refine { h' with live := ?_, epoll := ?_, batch := ?_, tick := ?_ }
  · intro x src hx hr
    exact howned x src (h'.live x src hx hr)
  · intro raw reg hreg hf
    obtain ⟨x, src, ho, hr, hk⟩ := h'.epoll raw reg hreg hf
    exact ⟨x, src, howned x src ho, hr, hk⟩
  · intro ev hev
    obtain ⟨reg, hreg, hrep⟩ := (Option.any_eq_true _ _).1 (hevs.2 ev hev)
    obtain ⟨x, src, ho, hr, hk⟩ := h.epoll ev.raw reg hreg (hflags ev hev reg hreg)
    have hkey : ev.key = reg.key := by
      unfold Reg.reports at hrep
      simp only [Bool.and_eq_true, beq_iff_eq] at hrep
      exact hrep.1.2
    refine ⟨x, ?_, ?_, fun op hop => ?_⟩
    · rw [hkey, ← hk]; exact ho.slab
    · show g.owner (g.reg ev.raw) = some x
      rw [← hr]; exact ho.owner
    · show (g.seen (g.reg ev.raw) op || evs.any fun e => g.reg e.raw == g.reg ev.raw && e.ready op) = true
      rw [Bool.or_eq_true, List.any_eq_true]
      exact Or.inr ⟨ev, hev, by simp [hop]⟩
  · intro x src op hx ht
    obtain ⟨n, ho, hseen⟩ := h.tick x src op hx ht
    refine ⟨n, ho, ?_⟩
    show (g.seen n op || _) = true
    rw [hseen]; rfl

omit [DecidableEq κ] in
theorem Tracked.next {s s' : State κ W} {g : Reports κ} (h : Tracked (s, g))
    (hs : s.reactStep = some s') : Tracked (s', g) := by
  have hsame := reactStep_same hs
  refine h.frame hsame.source hsame.slab hsame.adding hsame.removed ?_ fun raw reg hreg => ?_
  · rw [hsame.batch]; exact fun _ => id
  · exact ⟨reg, hsame.epoll ▸ hreg, rfl, rfl⟩

variable [DecidableEq W]

theorem Tracked.step {s s' : State κ W} {g : Reports κ} (h : Tracked (s, g)) (hw : Wf s)
    {a : Act κ W} (ha : Attributable (s, g) a) (hs : Sources.step s a = some s') :
    Tracked (s', g.record s a) := by
  have hid : ∀ raw reg, s.epoll raw = some reg →
      ∃ reg', s.epoll raw = some reg' ∧ reg'.flags = reg.flags ∧ reg'.key = reg.key :=
    fun _ reg hreg => ⟨reg, hreg, rfl, rfl⟩
  cases step_cases hs with
  | pollerInsert hraw => exact h.pollerInsert hw hraw
  | insertIo hraw hx hk => exact h.insertIo hw hraw hx hk
  | @removeIo _ src hx _ hl => exact h.removeIo hw hx ha.1 hl (ha.2 src hx)
  | @close _ src =>
    refine h.frame rfl rfl rfl rfl (fun _ => id) fun raw reg hreg => ⟨reg, ?_, rfl, rfl⟩
    have hne : raw ≠ src.raw := by
      rintro rfl
      simp at hreg
    simpa [hne] using hreg
  | pollReady hx hr hs => exact h.poll hx hr hs
  | react => exact h.frame rfl rfl rfl rfl (by simp) hid
  | next hs => exact h.next hs
  | waitEvents _ hevs =>
    refine h.waitEvents hevs ha fun raw reg' hreg => ?_
    split_ifs at hreg
    · obtain ⟨reg, hreg₀, rfl⟩ := Option.map_eq_some_iff.1 hreg
      exact ⟨reg, hreg₀, rfl, rfl⟩
    · exact ⟨reg', hreg, rfl, rfl⟩
  | waitEmpty => exact h.frame rfl rfl rfl rfl (fun _ => id) hid
  | process hs => exact h.process hw hs

theorem tracked_reach {p : State κ W × Reports κ} (h : tracked.Reach Attributable p) :
    Wf p.1 ∧ Tracked p := by
  refine h.inv (P := fun p => Wf p.1 ∧ Tracked p) ?_ ?_
  · rintro ⟨s, g⟩ ⟨hs, hg⟩
    cases hs
    cases hg
    exact ⟨wf_init, tracked_init⟩
  · rintro ⟨s, g⟩ a ⟨s', g'⟩ - ⟨hw, hi⟩ ha hs
    obtain ⟨hs, rfl⟩ := Lts.monitor_step hs
    exact ⟨hw.step hs, hi.step hw ha hs⟩

omit [DecidableEq κ] [DecidableEq W] in
/-- A direction that answers `Ready` has been marked. -/
theorem Tracked.ready {p : State κ W × Reports κ} (h : Tracked p) {x : κ} {src : Source W}
    (hx : p.1.source x = some src) {op : Op} (hr : (src.states op).ready = true) : p.2.Has x op := by
  refine h.tick x src op hx fun ht => ?_
  obtain ⟨⟨a, b⟩, hab, hne⟩ := (Option.any_eq_true _ _).1 hr
  have hb := h.unmarked x src op a b hx ht hab
  simp [ht, hb] at hne

omit [DecidableEq κ] [DecidableEq W] in
theorem connectAddr_ok {writable : Poll (Except ε Unit)} {takeError : Except ε (Option ε)}
    (h : connectAddr writable takeError = .ready (.ok ())) : writable = .ready (.ok ()) := by
  unfold connectAddr at h
  split at h
  · cases h
  · cases h
  · rfl

/-- **Events reach their own source** while no source is removed twice, or between the return of
    `wait` and the lock of `sources` with its key in the batch, and no descriptor is reported
    before its first interest.  Then `connect_addr` returns `Ok` only after its socket was
    reported. -/
theorem events_attributed {p : State κ W × Reports κ} (h : tracked.Reach Attributable p) :
    Attributed p := by
  have hi := (tracked_reach h).2
  refine ⟨fun tick ev rest x _ hb hk => ?_, hi.tick, fun x src w res takeError hx hok => ?_⟩
  · obtain ⟨y, hy, ho, -⟩ := hi.batch ev (by rw [hb]; exact List.mem_cons_self)
    rw [hk] at hy
    rw [ho, hy]
  · exact hi.ready hx (pollReady_ready.1 (connectAddr_ok hok))

end Steps

/-- A socket is connected while another source is removed. -/
def connects : List (Act ℕ ℕ) :=
  [.pollerInsert 5, .insertIo 0 5 0, .pollerInsert 6, .insertIo 1 6 1, .pollReady 1 .write 7 true,
    .react [], .next, .waitEvents [⟨6, 1, fun op => op = .write⟩], .removeIo 0, .next, .process true]

theorem events_attributed_connected : ∃ (p : State ℕ ℕ × Reports ℕ) (src : Source ℕ),
    tracked.run (init, .new) connects = some p ∧ p.1.source 1 = some src ∧
      connectAddr (src.pollReady p.1.ticker .write 7 (.ok ())).answer (.ok none : Except IoError _) =
        .ready (.ok ()) ∧ p.2.Has 1 .write := by
  have hrun : ∃ p : State ℕ ℕ × Reports ℕ, tracked.run (init, .new) connects = some p ∧
      ((p.1.source 1).any fun src => decide (connectAddr
        (src.pollReady p.1.ticker .write 7 (.ok ())).answer (.ok none : Except IoError _) =
          .ready (.ok ()))) = true :=
    Lts.exists_run (by decide +kernel)
  obtain ⟨p, hp, hsrc⟩ := hrun
  obtain ⟨src, hx, hok⟩ := (Option.any_eq_true _ _).1 hsrc
  have hinit : tracked.Reach Attributable ((init, .new) : State ℕ ℕ × Reports ℕ) := .init ⟨rfl, rfl⟩
  have hm : tracked.Meets Attributable ((init, .new) : State ℕ ℕ × Reports ℕ) connects := by
    decide +kernel
  have h := events_attributed (hinit.run hm hp)
  have hok := of_decide_eq_true hok
  exact ⟨p, src, hp, hx, hok, h.connect 1 src 7 (.ok ()) (.ok none) hx hok⟩

/-- `wait` has returned an event of source `0`, which is removed and closed; source `1` gets its
    key and begins to wait before `react` locks `sources`. -/
def staleBatch : List (Act ℕ ℕ) :=
  [.pollerInsert 5, .insertIo 0 5 0, .pollReady 0 .write 7 true, .react [], .next,
    .waitEvents [⟨5, 0, fun op => op = .write⟩], .removeIo 0, .close 0, .pollerInsert 6,
    .insertIo 1 6 0, .pollReady 1 .write 8 true, .next]

/-- A new descriptor hangs up before it is stored in the slab, while source `0` waits. -/
def placeholderKey : List (Act ℕ ℕ) :=
  [.pollerInsert 5, .insertIo 0 5 0, .pollReady 0 .write 7 true, .pollerInsert 6, .react [], .next,
    .waitEvents [⟨6, 0, fun _ => true⟩], .next]

theorem not_attributed [DecidableEq W] {p : State κ W × Reports κ} {tick raw key : ℕ} {x : κ}
    (hr : p.1.reacting = .loop tick)
    (hb : p.1.batch.head?.map (fun ev => (ev.raw, ev.key)) = some (raw, key))
    (hk : p.1.slab key = some x) (ho : p.2.owner (p.2.origin raw) ≠ some x) : ¬ Attributed p := by
  intro h
  cases hbatch : p.1.batch with
  | nil => rw [hbatch] at hb; cases hb
  | cons ev rest =>
    rw [hbatch] at hb
    cases hb
    exact ho (h.event tick ev rest x hr hbatch hk)

/-- `react` is about to deliver to source `1` the event of source `0`, and to source `0` the
    hang-up of the new descriptor.  In the first case the socket of source `1` is taken for
    connected, although nothing was ever reported for its registration. -/
theorem event_misattributed :
    (∃ p : State ℕ ℕ × Reports ℕ, tracked.run (init, .new) staleBatch = some p ∧ ¬ Attributed p) ∧
    (∃ p : State ℕ ℕ × Reports ℕ, tracked.run (init, .new) (staleBatch ++ [.process true]) = some p ∧
      p.2.owner 2 = some 1 ∧ p.2.seen 2 .write = false ∧
      ((p.1.source 1).any fun src => decide (connectAddr
        (src.pollReady p.1.ticker .write 8 (.ok ())).answer (.ok none : Except IoError _) =
          .ready (.ok ()))) = true) ∧
    ∃ p : State ℕ ℕ × Reports ℕ, tracked.run (init, .new) placeholderKey = some p ∧
      ¬ Attributed p := by
  have h₁ : ∃ p : State ℕ ℕ × Reports ℕ, tracked.run (init, .new) staleBatch = some p ∧
      p.1.reacting = .loop 1 ∧ p.1.batch.head?.map (fun ev => (ev.raw, ev.key)) = some (5, 0) ∧
      p.1.slab 0 = some 1 ∧ p.2.owner (p.2.origin 5) ≠ some 1 := Lts.exists_run (by decide +kernel)
  have h₂ : ∃ p : State ℕ ℕ × Reports ℕ, tracked.run (init, .new) placeholderKey = some p ∧
      p.1.reacting = .loop 1 ∧ p.1.batch.head?.map (fun ev => (ev.raw, ev.key)) = some (6, 0) ∧
      p.1.slab 0 = some 0 ∧ p.2.owner (p.2.origin 6) ≠ some 0 := Lts.exists_run (by decide +kernel)
  obtain ⟨p, hp, hr, hb, hk, ho⟩ := h₁
  obtain ⟨q, hq, hr', hb', hk', ho'⟩ := h₂
  exact ⟨⟨p, hp, not_attributed hr hb hk ho⟩, Lts.exists_run (by decide +kernel),
    q, hq, not_attributed hr' hb' hk' ho'⟩

end Awak.Sources
