/-
  `TcpStream::connect` with `connect_addr` (`net/tcp/stream.rs`), `UnixStream::connect`
  (`net/unix/stream.rs`) and `UdpSocket::bind` with `bind_addr` (`net/udp.rs`), over the
  sources of the reactor.

  One system call, one call of `poll_ready`, and each of `poller.insert`, the insertion into
  the slab, `remove_io` and the closing of a descriptor is one step; its answer is arbitrary.
  `Async::new` is two of them, the drop of an `Async` is `remove_io` and then the closing.
  The futures are polled with any wakers, and dropped where they are pending.  The returned
  streams are used and dropped by their owners.  A path has one address, and the loop over
  one address is the straight code of `UnixStream::connect`; its `peer_addr` is a `check`
  that succeeds with `None`.

  * `effect`, `step`: what a step does to the calls, and its move of the sources;
  * `Enabled`, `effect_cases`: what a step can do;
  * `Life`: what a step does to the sockets, which is all that their owners depend on;
  * `sockets_owned`: each open socket belongs to one call in progress or returned stream.
-/
import Awak.AsyncIo
import Awak.Lib.Owners

namespace Awak.Connect

open Sources

variable {τ κ ε A W : Type}

/-- `TcpStream::connect`, `UnixStream::connect` or `UdpSocket::bind`. -/
inductive Kind where
  | tcp
  | unix
  | udp
  deriving DecidableEq

/-- The kinds of `io::Error` made here. -/
inductive ErrorKind where
  | invalidInput
  deriving DecidableEq

/-- An `io::Error`: of the system, or `io::Error::new`. -/
inductive Error (ε : Type) where
  | os (e : ε)
  | new (kind : ErrorKind) (text : String)
  deriving DecidableEq

/-- The error when there was no address. -/
def unresolved : Error ε := .new .invalidInput "could not resolve to any address"

/-- What `socket.connect` returns; the errors `EINPROGRESS` and `WouldBlock` are told from
    the others. -/
inductive ConnectRes (ε : Type) where
  | ok
  | inProgress
  | wouldBlock
  | err (e : ε)

/-- The `Async` of a socket. -/
structure Stream (κ : Type) where
  io : ℕ
  source : κ
  deriving DecidableEq

/-- Where a poll is. -/
inductive Pc (κ : Type) where
  /-- `addr.to_socket_addrs()` or `SockAddr::unix` -/
  | resolve
  /-- the head of the loop -/
  | next
  | socket
  | nonblocking (raw : ℕ)
  | connect (raw : ℕ)
  /-- `poller.insert` -/
  | insert (raw : ℕ)
  /-- the rest of `insert_io` -/
  | register (raw : ℕ)
  /-- `stream.writable()` -/
  | writable (st : Stream κ)
  /-- `take_error` or `peer_addr` -/
  | check (st : Stream κ)
  deriving DecidableEq

/-- Where a call is. -/
inductive Place (κ ε W : Type) where
  /-- not polled yet -/
  | idle
  | run (cx : W) (pc : Pc κ)
  /-- the last poll has returned `Pending` -/
  | pending (cx : W) (st : Stream κ)
  /-- the `Async` is dropped, by a poll that goes on with an error or with the future -/
  | removing (st : Stream κ) (after : Option (W × Error ε))
  | closing (st : Stream κ) (after : Option (W × Error ε))
  | done (res : Except (Error ε) (Stream κ))
  deriving DecidableEq

/-- A call of one of the functions. -/
structure Call (κ ε A W : Type) where
  kind : Kind
  /-- the current address and those after it -/
  addrs : List A
  lastErr : Option (Error ε)
  place : Place κ ε W

/-- The sources, the descriptors made here, and the calls. -/
structure State (τ κ ε A W : Type) where
  sources : Sources.State κ W
  /-- the open descriptors made by the calls -/
  sockets : List ℕ
  calls : τ → Option (Call κ ε A W)

/-- No call has begun. -/
def init : State τ κ ε A W := ⟨Sources.init, [], fun _ => none⟩

/-- What a step does: the move of the sources, if any, and what becomes of the sockets and of
    the calls. -/
structure Effect (τ κ ε A W : Type) where
  move : Option (Sources.Act κ W)
  sockets : List ℕ
  calls : τ → Option (Call κ ε A W)

/-- The moves of the calls; every system call has its result as an argument. -/
inductive Act (τ κ ε A W : Type) where
  | call (t : τ) (kind : Kind)
  | poll (t : τ) (cx : W)
  | resolve (t : τ) (res : Except ε (List A))
  | next (t : τ)
  /-- `Socket::new`, or `net::UdpSocket::bind` -/
  | socket (t : τ) (res : Except ε ℕ)
  | nonblocking (t : τ) (res : Except ε Unit)
  | connect (t : τ) (res : ConnectRes ε)
  | insert (t : τ) (res : Except ε Unit)
  | register (t : τ) (x : κ) (key : ℕ)
  /-- `poll_ready`, with the result of its call of `interest` -/
  | ready (t : τ) (res : Except ε Unit)
  | check (t : τ) (res : Except ε (Option ε))
  /-- the owner drops the future or the stream -/
  | drop (t : τ)
  | remove (t : τ)
  | close (t : τ)
  /-- the owner of the returned stream polls it -/
  | use (t : τ) (op : Op) (cx : W) (ok : Bool)
  | other (a : Sources.Act κ W)

/-- The call goes to `p`. -/
def Call.goto (c : Call κ ε A W) (p : Place κ ε W) : Call κ ε A W := { c with place := p }

/-- `connect_addr` returns an error. -/
def Call.fail (c : Call κ ε A W) (cx : W) (e : Error ε) : Call κ ε A W :=
  { c with addrs := c.addrs.tail, lastErr := some e, place := .run cx .next }

/-- What follows the creation of the socket: on Linux a Unix socket is created nonblocking,
    and a UDP socket is made and bound by one call. -/
def Kind.created (kind : Kind) (raw : ℕ) : Pc κ :=
  match kind with
  | .tcp => .nonblocking raw
  | .unix => .connect raw
  | .udp => .insert raw

/-- What follows `Async::new`. -/
def Kind.registered (kind : Kind) (cx : W) (st : Stream κ) : Place κ ε W :=
  match kind with
  | .tcp | .unix => .run cx (.writable st)
  | .udp => .done (.ok st)

/-- A path is one address. -/
def Kind.resolves (kind : Kind) (addrs : List A) : Bool :=
  match kind with
  | .unix => addrs.length == 1
  | .tcp | .udp => true

/-- Where `connect_addr` goes with an answer of `poll_ready`. -/
def readyGoto (cx : W) (st : Stream κ) : Poll (Except ε Unit) → Place κ ε W
  | .ready (.ok ()) => .run cx (.check st)
  | .ready (.error e) => .removing st (some (cx, .os e))
  | .pending => .pending cx st

/-- Where `connect_addr` goes with an answer of `take_error`. -/
def checkGoto (cx : W) (st : Stream κ) : Except ε (Option ε) → Place κ ε W
  | .ok none => .done (.ok st)
  | .ok (some e) | .error e => .removing st (some (cx, .os e))

section Steps
variable [DecidableEq τ]

/-- The call of `t` becomes `c`, and nothing else changes. -/
def State.put (s : State τ κ ε A W) (t : τ) (c : Option (Call κ ε A W)) : Effect τ κ ε A W :=
  ⟨none, s.sockets, Function.update s.calls t c⟩

namespace Effect

variable (e : Effect τ κ ε A W)

/-- With a move of the sources. -/
def moving (a : Sources.Act κ W) : Effect τ κ ε A W := { e with move := some a }

/-- With a new descriptor. -/
def opening (raw : ℕ) : Effect τ κ ε A W := { e with sockets := raw :: e.sockets }

/-- With a descriptor closed. -/
def closing (raw : ℕ) : Effect τ κ ε A W := { e with sockets := e.sockets.erase raw }

end Effect

/-- The poll in progress. -/
def State.running (s : State τ κ ε A W) (t : τ) : Option (Call κ ε A W × W × Pc κ) :=
  match s.calls t with
  | some c =>
    match c.place with
    | .run cx pc => some (c, cx, pc)
    | _ => none
  | none => none

/-- The moves of all others, which do not have the sockets of the calls. -/
def State.foreign (s : State τ κ ε A W) : Sources.Act κ W → Bool
  | .pollerInsert raw | .insertIo _ raw _ => raw ∉ s.sockets
  | .removeIo x | .close x | .pollReady x _ _ _ =>
    (s.sources.source x).all fun src => src.raw ∉ s.sockets
  | .react _ | .next | .waitEvents _ | .waitEmpty _ | .process _ => true

/-- What a move does to the calls and the descriptors, and which move of the sources it is. -/
def effect [DecidableEq W] (s : State τ κ ε A W) : Act τ κ ε A W → Option (Effect τ κ ε A W)
  | .call t kind => if (s.calls t).isNone then some (s.put t (some ⟨kind, [], none, .idle⟩)) else none
  | .poll t cx =>
    match s.calls t with
    | some c =>
      match c.place with
      | .idle => some (s.put t (c.goto (.run cx .resolve)))
      | .pending _ st => some (s.put t (c.goto (.run cx (.writable st))))
      | _ => none
    | none => none
  | .resolve t res =>
    match s.running t with
    | some (c, cx, .resolve) =>
      match res with
      | .ok addrs =>
        if c.kind.resolves addrs then
          some (s.put t (some { c with addrs := addrs, place := .run cx .next }))
        else none
      | .error e => some (s.put t (c.goto (.done (.error (.os e)))))
    | _ => none
  | .next t =>
    match s.running t with
    | some (c, cx, .next) =>
      match c.addrs with
      | [] => some (s.put t (c.goto (.done (.error (c.lastErr.getD unresolved)))))
      | _ :: _ => some (s.put t (c.goto (.run cx .socket)))
    | _ => none
  | .socket t res =>
    match s.running t with
    | some (c, cx, .socket) =>
      match res with
      | .ok raw =>
        if raw ∉ s.sockets ∧ raw ∉ s.sources.fds then
          some ((s.put t (c.goto (.run cx (c.kind.created raw)))).opening raw)
        else none
      | .error e => some (s.put t (c.fail cx (.os e)))
    | _ => none
  | .nonblocking t res =>
    match s.running t with
    | some (c, cx, .nonblocking raw) =>
      match res with
      | .ok () => some (s.put t (c.goto (.run cx (.connect raw))))
      | .error e => some ((s.put t (c.fail cx (.os e))).closing raw)
    | _ => none
  | .connect t res =>
    match s.running t with
    | some (c, cx, .connect raw) =>
      match res with
      | .ok | .inProgress | .wouldBlock => some (s.put t (c.goto (.run cx (.insert raw))))
      | .err e => some ((s.put t (c.fail cx (.os e))).closing raw)
    | _ => none
  | .insert t res =>
    match s.running t with
    | some (c, cx, .insert raw) =>
      match res with
      | .ok () => some ((s.put t (c.goto (.run cx (.register raw)))).moving (.pollerInsert raw))
      | .error e => some ((s.put t (c.fail cx (.os e))).closing raw)
    | _ => none
  | .register t x key =>
    match s.running t with
    | some (c, cx, .register raw) =>
      some ((s.put t (c.goto (c.kind.registered cx ⟨raw, x⟩))).moving (.insertIo x raw key))
    | _ => none
  | .ready t res =>
    match s.running t with
    | some (c, cx, .writable st) =>
      match s.sources.source st.source with
      | some src =>
        let answer := (src.pollReady s.sources.ticker .write cx res).answer
        some ((s.put t (c.goto (readyGoto cx st answer))).moving
          (.pollReady st.source .write cx (succeeded res)))
      | none => none
    | _ => none
  | .check t res =>
    match s.running t with
    | some (c, cx, .check st) => some (s.put t (c.goto (checkGoto cx st res)))
    | _ => none
  | .drop t =>
    match s.calls t with
    | some c =>
      match c.place with
      | .idle | .done (.error _) => some (s.put t none)
      | .pending _ st | .done (.ok st) => some (s.put t (c.goto (.removing st none)))
      | _ => none
    | none => none
  | .remove t =>
    match s.calls t with
    | some c =>
      match c.place with
      | .removing st k => some ((s.put t (c.goto (.closing st k))).moving (.removeIo st.source))
      | _ => none
    | none => none
  | .close t =>
    match s.calls t with
    | some c =>
      match c.place with
      | .closing st k =>
        let c' := k.map fun p => c.fail p.1 p.2
        some (((s.put t c').closing st.io).moving (.close st.source))
      | _ => none
    | none => none
  | .use t op cx ok =>
    match s.calls t with
    | some c =>
      match c.place with
      | .done (.ok st) => some ⟨some (.pollReady st.source op cx ok), s.sockets, s.calls⟩
      | _ => none
    | none => none
  | .other a => if s.foreign a then some ⟨some a, s.sockets, s.calls⟩ else none

variable [DecidableEq κ] [DecidableEq W]

/-- The effect of a move, with the sources. -/
def step (s : State τ κ ε A W) (a : Act τ κ ε A W) : Option (State τ κ ε A W) :=
  (effect s a).bind fun e =>
    match e.move with
    | none => some ⟨s.sources, e.sockets, e.calls⟩
    | some b => (Sources.step s.sources b).map fun u => ⟨u, e.sockets, e.calls⟩

/-- Any number of calls, with all others that use the reactor. -/
def system : Lts (State τ κ ε A W) (Act τ κ ε A W) where
  init s := s = init
  step := step

/-! ## What a step can do -/

/-- A poll of `c` is at `pc`. -/
structure At (s : State τ κ ε A W) (t : τ) (c : Call κ ε A W) (cx : W) (pc : Pc κ) : Prop where
  call : s.calls t = some c
  place : c.place = .run cx pc

omit [DecidableEq τ] [DecidableEq κ] [DecidableEq W] in
theorem at_of_running {s : State τ κ ε A W} {t : τ} {c : Call κ ε A W} {cx : W} {pc : Pc κ}
    (h : s.running t = some (c, cx, pc)) : At s t c cx pc := by
  unfold State.running at h
  split at h
  next c' hc =>
    split at h
    next cx' pc' hp => cases h; exact ⟨hc, hp⟩
    next => cases h
  next => cases h

/-- The moves that are enabled in `s`, and what they do. -/
inductive Enabled (s : State τ κ ε A W) : Act τ κ ε A W → Effect τ κ ε A W → Prop
  | call {t : τ} {kind : Kind} (hc : s.calls t = none) :
      Enabled s (.call t kind) (s.put t (some ⟨kind, [], none, .idle⟩))
  | start {t : τ} {cx : W} {c : Call κ ε A W} (hc : s.calls t = some c) (hp : c.place = .idle) :
      Enabled s (.poll t cx) (s.put t (c.goto (.run cx .resolve)))
  | resume {t : τ} {cx cx' : W} {c : Call κ ε A W} {st : Stream κ} (hc : s.calls t = some c)
      (hp : c.place = .pending cx' st) :
      Enabled s (.poll t cx) (s.put t (c.goto (.run cx (.writable st))))
  | resolved {t : τ} {c : Call κ ε A W} {cx : W} {addrs : List A} (h : At s t c cx .resolve)
      (hk : c.kind.resolves addrs = true) : Enabled s (.resolve t (.ok addrs))
        (s.put t (some { c with addrs := addrs, place := .run cx .next }))
  | unresolved {t : τ} {c : Call κ ε A W} {cx : W} {e : ε} (h : At s t c cx .resolve) :
      Enabled s (.resolve t (.error e)) (s.put t (c.goto (.done (.error (.os e)))))
  | last {t : τ} {c : Call κ ε A W} {cx : W} (h : At s t c cx .next) (ha : c.addrs = []) :
      Enabled s (.next t) (s.put t (c.goto (.done (.error (c.lastErr.getD Connect.unresolved)))))
  | next {t : τ} {c : Call κ ε A W} {cx : W} {a : A} {rest : List A} (h : At s t c cx .next)
      (ha : c.addrs = a :: rest) : Enabled s (.next t) (s.put t (c.goto (.run cx .socket)))
  | created {t : τ} {c : Call κ ε A W} {cx : W} {raw : ℕ} (h : At s t c cx .socket)
      (hs : raw ∉ s.sockets) (hf : raw ∉ s.sources.fds) : Enabled s (.socket t (.ok raw))
        ((s.put t (c.goto (.run cx (c.kind.created raw)))).opening raw)
  | notCreated {t : τ} {c : Call κ ε A W} {cx : W} {e : ε} (h : At s t c cx .socket) :
      Enabled s (.socket t (.error e)) (s.put t (c.fail cx (.os e)))
  | nonblocking {t : τ} {c : Call κ ε A W} {cx : W} {raw : ℕ} (h : At s t c cx (.nonblocking raw)) :
      Enabled s (.nonblocking t (.ok ())) (s.put t (c.goto (.run cx (.connect raw))))
  | blocking {t : τ} {c : Call κ ε A W} {cx : W} {raw : ℕ} {e : ε}
      (h : At s t c cx (.nonblocking raw)) : Enabled s (.nonblocking t (.error e))
        ((s.put t (c.fail cx (.os e))).closing raw)
  | connecting {t : τ} {c : Call κ ε A W} {cx : W} {raw : ℕ} {res : ConnectRes ε}
      (h : At s t c cx (.connect raw)) (hr : ∀ e, res ≠ .err e) : Enabled s (.connect t res)
        (s.put t (c.goto (.run cx (.insert raw))))
  | refused {t : τ} {c : Call κ ε A W} {cx : W} {raw : ℕ} {e : ε} (h : At s t c cx (.connect raw)) :
      Enabled s (.connect t (.err e)) ((s.put t (c.fail cx (.os e))).closing raw)
  | inserted {t : τ} {c : Call κ ε A W} {cx : W} {raw : ℕ} (h : At s t c cx (.insert raw)) :
      Enabled s (.insert t (.ok ()))
        ((s.put t (c.goto (.run cx (.register raw)))).moving (.pollerInsert raw))
  | notInserted {t : τ} {c : Call κ ε A W} {cx : W} {raw : ℕ} {e : ε}
      (h : At s t c cx (.insert raw)) : Enabled s (.insert t (.error e))
        ((s.put t (c.fail cx (.os e))).closing raw)
  | registered {t : τ} {c : Call κ ε A W} {cx : W} {raw : ℕ} {x : κ} {key : ℕ}
      (h : At s t c cx (.register raw)) : Enabled s (.register t x key)
        ((s.put t (c.goto (c.kind.registered cx ⟨raw, x⟩))).moving (.insertIo x raw key))
  | ready {t : τ} {c : Call κ ε A W} {cx : W} {st : Stream κ} {src : Source W} {res : Except ε Unit}
      (h : At s t c cx (.writable st)) (hx : s.sources.source st.source = some src) :
      Enabled s (.ready t res)
        ((s.put t (c.goto (readyGoto cx st
          (src.pollReady s.sources.ticker .write cx res).answer))).moving
          (.pollReady st.source .write cx (succeeded res)))
  | check {t : τ} {c : Call κ ε A W} {cx : W} {st : Stream κ} {res : Except ε (Option ε)}
      (h : At s t c cx (.check st)) : Enabled s (.check t res)
        (s.put t (c.goto (checkGoto cx st res)))
  | gone {t : τ} {c : Call κ ε A W} (hc : s.calls t = some c)
      (hp : c.place = .idle ∨ ∃ e, c.place = .done (.error e)) :
      Enabled s (.drop t) (s.put t none)
  | drop {t : τ} {c : Call κ ε A W} {st : Stream κ} (hc : s.calls t = some c)
      (hp : (∃ cx, c.place = .pending cx st) ∨ c.place = .done (.ok st)) :
      Enabled s (.drop t) (s.put t (c.goto (.removing st none)))
  | remove {t : τ} {c : Call κ ε A W} {st : Stream κ} {k : Option (W × Error ε)}
      (hc : s.calls t = some c) (hp : c.place = .removing st k) : Enabled s (.remove t)
        ((s.put t (c.goto (.closing st k))).moving (.removeIo st.source))
  | close {t : τ} {c : Call κ ε A W} {st : Stream κ} {k : Option (W × Error ε)}
      (hc : s.calls t = some c) (hp : c.place = .closing st k) : Enabled s (.close t)
        (((s.put t (k.map fun p => c.fail p.1 p.2)).closing st.io).moving (.close st.source))
  | use {t : τ} {c : Call κ ε A W} {st : Stream κ} {op : Op} {cx : W} {ok : Bool}
      (hc : s.calls t = some c) (hp : c.place = .done (.ok st)) : Enabled s (.use t op cx ok)
        ⟨some (.pollReady st.source op cx ok), s.sockets, s.calls⟩
  | other {b : Sources.Act κ W} (hb : s.foreign b = true) :
      Enabled s (.other b) ⟨some b, s.sockets, s.calls⟩

omit [DecidableEq κ] in
theorem effect_cases {s : State τ κ ε A W} {a : Act τ κ ε A W} {e : Effect τ κ ε A W}
    (h : effect s a = some e) : Enabled s a e := by
  cases a with
  | call t kind =>
    simp only [effect] at h
    split_ifs at h with hc
    cases h
    exact .call (Option.isNone_iff_eq_none.1 hc)
  | poll t cx =>
    simp only [effect] at h
    split at h
    next c hc =>
      split at h
      next hp => cases h; exact .start hc hp
      next cx' st hp => cases h; exact .resume hc hp
      next => cases h
    next => cases h
  | resolve t res =>
    simp only [effect] at h
    split at h
    next c cx hrun =>
      split at h
      next addrs =>
        split_ifs at h with hk
        cases h
        exact .resolved (at_of_running hrun) hk
      next e => cases h; exact .unresolved (at_of_running hrun)
    next => cases h
  | next t =>
    simp only [effect] at h
    split at h
    next c cx hrun =>
      split at h
      next ha => cases h; exact .last (at_of_running hrun) ha
      next a rest ha => cases h; exact .next (at_of_running hrun) ha
    next => cases h
  | socket t res =>
    simp only [effect] at h
    split at h
    next c cx hrun =>
      split at h
      next raw =>
        split_ifs at h with hraw
        cases h
        exact .created (at_of_running hrun) hraw.1 hraw.2
      next e => cases h; exact .notCreated (at_of_running hrun)
    next => cases h
  | nonblocking t res =>
    simp only [effect] at h
    split at h
    next c cx raw hrun =>
      split at h
      next => cases h; exact .nonblocking (at_of_running hrun)
      next e => cases h; exact .blocking (at_of_running hrun)
    next => cases h
  | connect t res =>
    simp only [effect] at h
    split at h
    next c cx raw hrun =>
      split at h
      next => cases h; exact .connecting (at_of_running hrun) (by simp)
      next => cases h; exact .connecting (at_of_running hrun) (by simp)
      next => cases h; exact .connecting (at_of_running hrun) (by simp)
      next e => cases h; exact .refused (at_of_running hrun)
    next => cases h
  | insert t res =>
    simp only [effect] at h
    split at h
    next c cx raw hrun =>
      split at h
      next => cases h; exact .inserted (at_of_running hrun)
      next e => cases h; exact .notInserted (at_of_running hrun)
    next => cases h
  | register t x key =>
    simp only [effect] at h
    split at h
    next c cx raw hrun => cases h; exact .registered (at_of_running hrun)
    next => cases h
  | ready t res =>
    simp only [effect] at h
    split at h
    next c cx st hrun =>
      split at h
      next src hx => cases h; exact .ready (at_of_running hrun) hx
      next => cases h
    next => cases h
  | check t res =>
    simp only [effect] at h
    split at h
    next c cx st hrun => cases h; exact .check (at_of_running hrun)
    next => cases h
  | drop t =>
    simp only [effect] at h
    split at h
    next c hc =>
      split at h
      next hp => cases h; exact .gone hc (Or.inl hp)
      next e hp => cases h; exact .gone hc (Or.inr ⟨e, hp⟩)
      next cx st hp => cases h; exact .drop hc (Or.inl ⟨cx, hp⟩)
      next st hp => cases h; exact .drop hc (Or.inr hp)
      next => cases h
    next => cases h
  | remove t =>
    simp only [effect] at h
    split at h
    next c hc =>
      split at h
      next st k hp => cases h; exact .remove hc hp
      next => cases h
    next => cases h
  | close t =>
    simp only [effect] at h
    split at h
    next c hc =>
      split at h
      next st k hp => cases h; exact .close hc hp
      next => cases h
    next => cases h
  | use t op cx ok =>
    simp only [effect] at h
    split at h
    next c hc =>
      split at h
      next st hp => cases h; exact .use hc hp
      next => cases h
    next => cases h
  | other b =>
    simp only [effect] at h
    split_ifs at h with hb
    cases h
    exact .other hb

theorem step_cases {s s' : State τ κ ε A W} {a : Act τ κ ε A W} (h : step s a = some s') :
    ∃ e, effect s a = some e ∧ s'.sockets = e.sockets ∧ s'.calls = e.calls ∧
      (e.move = none ∧ s'.sources = s.sources ∨
        ∃ b, e.move = some b ∧ Sources.step s.sources b = some s'.sources) := by
  obtain ⟨e, he, h⟩ := Option.bind_eq_some_iff.1 h
  refine ⟨e, he, ?_⟩
  split at h
  next hm => cases h; exact ⟨rfl, rfl, Or.inl ⟨hm, rfl⟩⟩
  next b hm =>
    obtain ⟨u, hu, rfl⟩ := Option.map_eq_some_iff.1 h
    exact ⟨rfl, rfl, Or.inr ⟨b, hm, hu⟩⟩

end Steps

/-! ## The life of a socket -/

/-- What a call has of a socket. -/
inductive Stage (κ : Type) where
  | absent
  /-- open, not yet in epoll -/
  | fresh (raw : ℕ)
  /-- in epoll, not yet in the slab -/
  | added (raw : ℕ)
  | live (st : Stream κ)
  /-- `remove_io` has been called -/
  | removed (st : Stream κ)
  deriving DecidableEq

/-- The descriptor of a stage. -/
def Stage.socket : Stage κ → Option ℕ
  | .absent => none
  | .fresh raw | .added raw => some raw
  | .live st | .removed st => some st.io

/-- What a call has at a place. -/
def Place.stage : Place κ ε W → Stage κ
  | .idle | .run _ .resolve | .run _ .next | .run _ .socket | .done (.error _) => .absent
  | .run _ (.nonblocking raw) | .run _ (.connect raw) | .run _ (.insert raw) => .fresh raw
  | .run _ (.register raw) => .added raw
  | .run _ (.writable st) | .run _ (.check st) | .pending _ st | .removing st _ |
    .done (.ok st) => .live st
  | .closing st _ => .removed st

/-- What each call has. -/
def stages (calls : τ → Option (Call κ ε A W)) (t : τ) : Stage κ :=
  (calls t).elim .absent fun c => c.place.stage

/-- The move leaves this descriptor alone. -/
def Spares (u : Sources.State κ W) (raw : ℕ) : Sources.Act κ W → Prop
  | .pollerInsert r | .insertIo _ r _ => r ≠ raw
  | .removeIo x | .close x => ∀ src, u.source x = some src → src.raw ≠ raw
  | _ => True

/-- What a step does to the sockets: they are opened, handed to the reactor, taken back and
    closed, and otherwise left alone. -/
inductive Life [DecidableEq τ] (u : Sources.State κ W) (l : List ℕ) (f : τ → Stage κ) :
    Option (Sources.Act κ W) → List ℕ → (τ → Stage κ) → Prop
  | rest : Life u l f none l f
  | shared {b : Sources.Act κ W} (hb : ∀ raw ∈ l, Spares u raw b) : Life u l f (some b) l f
  | opened {t : τ} {raw : ℕ} (ht : f t = .absent) (hl : raw ∉ l) (hf : raw ∉ u.fds) :
      Life u l f none (raw :: l) (Function.update f t (.fresh raw))
  | dropped {t : τ} {raw : ℕ} (ht : f t = .fresh raw) :
      Life u l f none (l.erase raw) (Function.update f t .absent)
  | added {t : τ} {raw : ℕ} (ht : f t = .fresh raw) :
      Life u l f (some (.pollerInsert raw)) l (Function.update f t (.added raw))
  | registered {t : τ} {raw : ℕ} {x : κ} {key : ℕ} (ht : f t = .added raw) :
      Life u l f (some (.insertIo x raw key)) l (Function.update f t (.live ⟨raw, x⟩))
  | removed {t : τ} {st : Stream κ} (ht : f t = .live st) :
      Life u l f (some (.removeIo st.source)) l (Function.update f t (.removed st))
  | closed {t : τ} {st : Stream κ} (ht : f t = .removed st) :
      Life u l f (some (.close st.source)) (l.erase st.io) (Function.update f t .absent)

theorem stages_some {calls : τ → Option (Call κ ε A W)} {t : τ} {c : Call κ ε A W}
    (h : calls t = some c) : stages calls t = c.place.stage := by
  rw [stages, h, Option.elim_some]

theorem stages_none {calls : τ → Option (Call κ ε A W)} {t : τ} (h : calls t = none) :
    stages calls t = .absent := by
  rw [stages, h, Option.elim_none]

section Life
variable [DecidableEq τ]

theorem stages_update (calls : τ → Option (Call κ ε A W)) (t : τ) (c : Option (Call κ ε A W)) :
    stages (Function.update calls t c) =
      Function.update (stages calls) t (c.elim .absent fun c => c.place.stage) := by
  funext t'
  by_cases ht : t' = t
  · subst ht; simp [stages]
  · simp [stages, ht]

/-- The stage of `t` stays as it is. -/
theorem stages_keep {calls : τ → Option (Call κ ε A W)} {t : τ} {c : Option (Call κ ε A W)}
    (h : stages calls t = c.elim .absent fun c => c.place.stage) :
    stages (Function.update calls t c) = stages calls := by
  rw [stages_update, ← h, Function.update_eq_self]

theorem stage_created {kind : Kind} {cx : W} {raw : ℕ} :
    (Place.run cx (kind.created raw) : Place κ ε W).stage = .fresh raw := by
  cases kind <;> rfl

theorem stage_registered {kind : Kind} {cx : W} {st : Stream κ} :
    (kind.registered cx st : Place κ ε W).stage = .live st := by
  cases kind <;> rfl

theorem stage_ready {cx : W} {st : Stream κ} {res : Poll (Except ε Unit)} :
    (readyGoto cx st res).stage = .live st := by
  cases res with
  | pending => rfl
  | ready r => cases r <;> rfl

theorem stage_check {cx : W} {st : Stream κ} {res : Except ε (Option ε)} :
    (checkGoto cx st res).stage = .live st := by
  cases res with
  | error e => rfl
  | ok o => cases o <;> rfl

variable [DecidableEq W] {s : State τ κ ε A W} {t : τ} {c : Call κ ε A W} {cx : W}

omit [DecidableEq τ] [DecidableEq W] in
theorem At.stage {pc : Pc κ} (h : At s t c cx pc) :
    stages s.calls t = (Place.run cx pc : Place κ ε W).stage := by
  rw [stages_some h.call, h.place]

omit [DecidableEq τ] [DecidableEq W] in
theorem spares_of_foreign {b : Sources.Act κ W} (h : s.foreign b = true) :
    ∀ raw ∈ s.sockets, Spares s.sources raw b := by
  intro raw hraw
  cases b with
  | pollerInsert r | insertIo _ r _ =>
    rintro rfl
    simp [State.foreign, hraw] at h
  | removeIo x | close x =>
    rintro src hx rfl
    simp [State.foreign, hx, hraw] at h
  | _ => trivial

/-- Every step is one in the lives of the sockets. -/
theorem life {a : Act τ κ ε A W} {e : Effect τ κ ε A W} (h : Enabled s a e) :
    Life s.sources s.sockets (stages s.calls) e.move e.sockets (stages e.calls) := by
  have keep : ∀ {t : τ} {c : Option (Call κ ε A W)},
      stages s.calls t = (c.elim .absent fun c => c.place.stage) →
      Life s.sources s.sockets (stages s.calls) (s.put t c).move (s.put t c).sockets
        (stages (s.put t c).calls) := by
    intro t c hc
    rw [State.put, stages_keep hc]
    exact .rest
  have drop : ∀ {t : τ} {c : Option (Call κ ε A W)} {raw : ℕ},
      stages s.calls t = .fresh raw → (c.elim .absent fun c => c.place.stage) = .absent →
      Life s.sources s.sockets (stages s.calls) ((s.put t c).closing raw).move
        ((s.put t c).closing raw).sockets (stages ((s.put t c).closing raw).calls) := by
    intro t c raw hraw hc
    simp only [State.put, Effect.closing]
    rw [stages_update, hc]
    exact .dropped hraw
  cases h with
  | call hc => exact keep (stages_none hc)
  | start hc hp => exact keep (by rw [stages_some hc, hp]; rfl)
  | resume hc hp => exact keep (by rw [stages_some hc, hp]; rfl)
  | resolved h => exact keep h.stage
  | unresolved h => exact keep h.stage
  | last h => exact keep h.stage
  | next h => exact keep h.stage
  | created h hs hf =>
    simp only [State.put, Effect.opening]
    rw [stages_update]
    simp only [Option.elim_some, Call.goto, stage_created]
    exact .opened h.stage hs hf
  | notCreated h => exact keep h.stage
  | nonblocking h => exact keep h.stage
  | blocking h => exact drop h.stage rfl
  | connecting h => exact keep h.stage
  | refused h => exact drop h.stage rfl
  | inserted h =>
    simp only [State.put, Effect.moving]
    rw [stages_update]
    exact .added h.stage
  | notInserted h => exact drop h.stage rfl
  | registered h =>
    simp only [State.put, Effect.moving]
    rw [stages_update]
    simp only [Option.elim_some, Call.goto, stage_registered]
    exact .registered h.stage
  | ready h =>
    simp only [State.put, Effect.moving]
    rw [stages_keep (by rw [h.stage]; exact stage_ready.symm)]
    exact .shared fun _ _ => trivial
  | check h => exact keep (by rw [h.stage]; exact stage_check.symm)
  | gone hc hp => exact keep (by rw [stages_some hc]; rcases hp with hp | ⟨e, hp⟩ <;> rw [hp] <;> rfl)
  | drop hc hp => exact keep (by rw [stages_some hc]; rcases hp with ⟨cx, hp⟩ | hp <;> rw [hp] <;> rfl)
  | remove hc hp =>
    simp only [State.put, Effect.moving]
    rw [stages_update]
    exact .removed (by rw [stages_some hc, hp]; rfl)
  | @close _ _ _ k hc hp =>
    simp only [State.put, Effect.closing, Effect.moving]
    rw [stages_update]
    cases k <;> exact .closed (by rw [stages_some hc, hp]; rfl)
  | use => exact .shared fun _ _ => trivial
  | other hb => exact .shared (spares_of_foreign hb)

end Life

/-- The source of a stream, whose descriptor is open. -/
def HasSource (u : Sources.State κ W) (st : Stream κ) (removed : Bool) : Prop :=
  ∃ src, u.source st.source = some src ∧ src.raw = st.io ∧ u.removed st.source = removed ∧
    u.closed st.source = false

/-- What the reactor has of a socket. -/
def Stage.Ok (u : Sources.State κ W) : Stage κ → Prop
  | .absent => True
  | .fresh raw => raw ∉ u.fds
  | .added raw => raw ∈ u.adding
  | .live st => HasSource u st false
  | .removed st => HasSource u st true

section Ok
variable {u u' : Sources.State κ W} {g : Stage κ}

theorem Stage.Ok.moves (h : g.Ok u) (hm : Moves u u') : g.Ok u' := by
  have hsource : ∀ st b, HasSource u st b → HasSource u' st b := by
    rintro st b ⟨src, hx, hraw, hr, hc⟩
    have hmap := hm.source st.source
    rw [hx] at hmap
    obtain ⟨src', hx', he⟩ := Option.map_eq_some_iff.1 hmap
    exact ⟨src', hx', (Prod.mk.inj he).1.trans hraw, by rwa [hm.removed], by rwa [hm.closed]⟩
  cases g with
  | absent => trivial
  | fresh raw => exact fun hf => h (by rwa [← hm.fds])
  | added raw => exact show raw ∈ u'.adding by rw [hm.adding]; exact h
  | live st => exact hsource st _ h
  | removed st => exact hsource st _ h

variable [DecidableEq κ]

/-- A source that is there keeps its descriptor. -/
theorem hasSource_insertIo {st : Stream κ} {b : Bool} (h : HasSource u st b) {x : κ} {raw key : ℕ}
    (hx : u.source x = none) : HasSource (u.insertIo x raw key) st b := by
  obtain ⟨src, hsrc, h⟩ := h
  have hne : st.source ≠ x := by
    rintro rfl
    rw [hx] at hsrc; cases hsrc
  exact ⟨src, by simpa [State.insertIo, State.setSource, hne] using hsrc, h⟩

theorem removeIo_fields (u : Sources.State κ W) (x : κ) (src : Source W) :
    (u.removeIo x src).source = u.source ∧ (u.removeIo x src).closed = u.closed ∧
      (u.removeIo x src).fds = u.fds ∧ (u.removeIo x src).adding = u.adding ∧
      (u.removeIo x src).removed = Function.update u.removed x true := by
  unfold State.removeIo
  dsimp only
  split <;> exact ⟨rfl, rfl, rfl, rfl, rfl⟩

/-- A move that spares the descriptor leaves its socket as it is. -/
theorem Stage.Ok.step [DecidableEq W] (hw : Wf u) (h : g.Ok u) {b : Sources.Act κ W}
    (hs : Sources.step u b = some u') (hb : ∀ raw, g.socket = some raw → Spares u raw b) :
    g.Ok u' := by
  have hwf : ∀ {s : Sources.State κ W}, Moves u s → g.Ok s := fun hm => h.moves hm
  cases Sources.step_cases hs with
  | @pollerInsert r hr =>
    cases g with
    | fresh raw => exact fun hf => (List.mem_cons.1 hf).elim (fun he => hb raw rfl he.symm) h
    | added raw => exact List.mem_cons_of_mem _ h
    | _ => exact h
  | @insertIo x r key _ hx =>
    cases g with
    | added raw => exact (List.mem_erase_of_ne fun he => hb raw rfl he.symm).2 h
    | live st => exact hasSource_insertIo h hx
    | removed st => exact hasSource_insertIo h hx
    | _ => exact h
  | @removeIo x src hx hc =>
    obtain ⟨hsource, hclosed, hfds, hadding, hremoved⟩ := removeIo_fields u x src
    have hsrc : ∀ st b, HasSource u st b → st.source ≠ x → HasSource (u.removeIo x src) st b := by
      rintro st b ⟨src', hx', hraw, hr, hcl⟩ hne
      refine ⟨src', by rw [hsource]; exact hx', hraw, ?_, by rw [hclosed]; exact hcl⟩
      rw [hremoved, Function.update_of_ne hne]
      exact hr
    have hne : ∀ st b, HasSource u st b → Spares u st.io (.removeIo x) → st.source ≠ x := by
      rintro st b ⟨src', hx', hraw, -⟩ hspare rfl
      exact hspare src' hx' hraw
    cases g with
    | absent => trivial
    | fresh raw => exact fun hf => h (by rwa [← hfds])
    | added raw => exact show raw ∈ (u.removeIo x src).adding by rw [hadding]; exact h
    | live st => exact hsrc st _ h (hne st _ h (hb st.io rfl))
    | removed st => exact hsrc st _ h (hne st _ h (hb st.io rfl))
  | @close x src hx hr hc =>
    have hsrc : ∀ st b, HasSource u st b → st.source ≠ x → HasSource { u with
        closed := Function.update u.closed x true
        fds := u.fds.erase src.raw
        epoll := Function.update u.epoll src.raw none } st b := by
      rintro st b ⟨src', hx', hraw, hr', hcl⟩ hne
      exact ⟨src', hx', hraw, hr', by simpa [hne] using hcl⟩
    have hne : ∀ st b, HasSource u st b → Spares u st.io (.close x) → st.source ≠ x := by
      rintro st b ⟨src', hx', hraw, -⟩ hspare rfl
      exact hspare src' hx' hraw
    cases g with
    | absent => trivial
    | fresh raw => exact fun hf => h (List.mem_of_mem_erase hf)
    | added raw => exact h
    | live st => exact hsrc st _ h (hne st _ h (hb st.io rfl))
    | removed st => exact hsrc st _ h (hne st _ h (hb st.io rfl))
  | pollReady hx _ hs => exact hwf (moves_pollReady hw hx hs)
  | react => exact hwf ⟨rfl, rfl, rfl, rfl, rfl, fun _ => rfl, fun hn => absurd rfl hn⟩
  | next hs => exact hwf (moves_reactStep hw hs)
  | @waitEvents _ tick =>
    exact hwf ⟨rfl, rfl, rfl, rfl, rfl, fun _ => rfl, fun _ => ⟨tick, Or.inl rfl⟩⟩
  | waitEmpty hr =>
    have hbatch := hw.batch
    rw [hr] at hbatch
    exact hwf ⟨rfl, rfl, rfl, rfl, rfl, fun _ => rfl, fun hn => by simpa using hbatch hn⟩
  | process hs => exact hwf (moves_process hs)

end Ok

section Owned
variable [DecidableEq τ] [DecidableEq κ] [DecidableEq W] {u u' : Sources.State κ W} {l l' : List ℕ}
  {f f' : τ → Stage κ} {m : Option (Sources.Act κ W)}

/-- The sockets `l` are those of the stages `f`, each of them once, as the reactor has them. -/
structure Owned (u : Sources.State κ W) (l : List ℕ) (f : τ → Stage κ) : Prop where
  sockets : Owners.Exact l fun t => (f t).socket
  ok : ∀ t, (f t).Ok u

omit [DecidableEq κ] [DecidableEq W] in
theorem socket_update (f : τ → Stage κ) (t : τ) (g : Stage κ) :
    (fun t' => (Function.update f t g t').socket) =
      Function.update (fun t' => (f t').socket) t g.socket := by
  funext t'
  by_cases ht : t' = t
  · subst ht; simp
  · simp [ht]

omit [DecidableEq κ] [DecidableEq W] in
theorem exact_life (h : Owners.Exact l fun t => (f t).socket) (hl : Life u l f m l' f') :
    Owners.Exact l' fun t => (f' t).socket := by
  cases hl with
  | rest | shared => exact h
  | opened ht hraw =>
    rw [socket_update]
    exact h.acquire (by simp only [ht]; rfl) hraw
  | dropped ht =>
    rw [socket_update]
    exact h.release (by simp only [ht]; rfl)
  | added ht | registered ht | removed ht =>
    rw [socket_update]
    exact h.keep (by simp only [ht]; rfl)
  | closed ht =>
    rw [socket_update]
    exact h.release (by simp only [ht]; rfl)

omit [DecidableEq τ] [DecidableEq κ] [DecidableEq W] in
/-- Two calls have different sockets. -/
theorem Owned.ne (h : Owned u l f) {t t' : τ} {raw raw' : ℕ} (ht : (f t).socket = some raw)
    (ht' : (f t').socket = some raw') (hne : t' ≠ t) : raw ≠ raw' := by
  rintro rfl
  exact hne (h.sockets.unique t' t raw ht' ht)

omit [DecidableEq W] in
theorem hasSource_new {x : κ} {raw key : ℕ} (hw : Wf u) (hx : u.source x = none) :
    HasSource (u.insertIo x raw key) ⟨raw, x⟩ false := by
  have hremoved : u.removed x = false := hw.unborn x hx
  refine ⟨⟨raw, key, fun _ => ⟨[], 0, none⟩⟩, Function.update_self .., rfl, hremoved, ?_⟩
  by_contra hc
  have hclosed : u.closed x = true := by simpa [State.insertIo, State.setSource] using hc
  rw [hw.closed x hclosed] at hremoved
  cases hremoved

/-- The reactor has the sockets as their stages say. -/
theorem ok_life (hw : Wf u) (h : Owned u l f) (hl : Life u l f m l' f')
    (hm : m = none ∧ u' = u ∨ ∃ b, m = some b ∧ Sources.step u b = some u') (t : τ) :
    (f' t).Ok u' := by
  have still : m = none → ∀ t₀ g, g.Ok u → (Function.update f t₀ g t).Ok u' := by
    intro hnone t₀ g hg
    obtain ⟨-, rfl⟩ | ⟨b, hb, -⟩ := hm
    · by_cases htt : t = t₀
      · subst htt
        rwa [Function.update_self]
      · rw [Function.update_of_ne htt]
        exact h.ok t
    · rw [hnone] at hb; cases hb
  -- a move for the socket of `t₀` spares the others
  have moved : ∀ b, m = some b → ∀ t₀ raw g, (f t₀).socket = some raw →
      (∀ raw', raw ≠ raw' → Spares u raw' b) → (Sources.step u b = some u' → g.Ok u') →
      (Function.update f t₀ g t).Ok u' := by
    intro b hb t₀ raw g ht₀ hspare hg
    obtain ⟨hnone, -⟩ | ⟨b', hb', hs⟩ := hm
    · rw [hnone] at hb; cases hb
    · rw [hb'] at hb; cases hb
      by_cases htt : t = t₀
      · subst htt
        rw [Function.update_self]
        exact hg hs
      · rw [Function.update_of_ne htt]
        exact (h.ok t).step hw hs fun raw' hraw' => hspare raw' (h.ne ht₀ hraw' htt)
  cases hl with
  | rest =>
    obtain ⟨-, rfl⟩ | ⟨b, hb, -⟩ := hm
    · exact h.ok t
    · cases hb
  | shared hb =>
    obtain ⟨hb', -⟩ | ⟨b, hb', hs⟩ := hm
    · cases hb'
    · cases hb'
      exact (h.ok t).step hw hs fun raw hraw => hb raw (h.sockets.mem t raw hraw)
  | opened _ _ hf => exact still rfl _ _ hf
  | dropped => exact still rfl _ _ trivial
  | added ht =>
    refine moved _ rfl _ _ _ (by rw [ht]; rfl) (fun _ => id) fun hs => ?_
    cases Sources.step_cases hs with
    | pollerInsert => exact List.mem_cons_self
  | registered ht =>
    refine moved _ rfl _ _ _ (by rw [ht]; rfl) (fun _ => id) fun hs => ?_
    cases Sources.step_cases hs with
    | insertIo _ hx => exact hasSource_new hw hx
  | @removed t₀ st ht =>
    obtain ⟨src, hx, hraw, -, hc⟩ : (Stage.live st).Ok u := ht ▸ h.ok t₀
    refine moved _ rfl _ _ _ (by rw [ht]; rfl) (fun raw' hne src' hx' he => hne ?_) fun hs => ?_
    · rw [hx] at hx'; cases hx'
      rw [← hraw, he]
    · cases Sources.step_cases hs with
      | @removeIo _ src' =>
        obtain ⟨hsource, hclosed, -, -, hremoved⟩ := removeIo_fields u st.source src'
        exact ⟨src, by rw [hsource]; exact hx, hraw, by rw [hremoved, Function.update_self],
          by rw [hclosed]; exact hc⟩
  | @closed t₀ st ht =>
    obtain ⟨src, hx, hraw, -⟩ : (Stage.removed st).Ok u := ht ▸ h.ok t₀
    refine moved _ rfl _ _ _ (by rw [ht]; rfl) (fun raw' hne src' hx' he => hne ?_)
      fun _ => trivial
    rw [hx] at hx'; cases hx'
    rw [← hraw, he]

end Owned

/-! ## No socket leaks -/

/-- The sources that are not removed are in the slab. -/
def Listed (u : Sources.State κ W) : Prop :=
  ∀ x src, u.source x = some src → u.removed x = false → Registered u x src

/-- `remove_io` is not called again for a source. -/
def Once (u : Sources.State κ W) : Sources.Act κ W → Prop
  | .removeIo x => u.removed x = false
  | _ => True

instance (u : Sources.State κ W) : DecidablePred (Once u)
  | .removeIo x => inferInstanceAs (Decidable (u.removed x = false))
  | .pollerInsert _ | .insertIo .. | .close _ | .pollReady .. | .react _ | .next | .waitEvents _
  | .waitEmpty _ | .process _ => isTrue trivial

theorem Listed.moves {u u' : Sources.State κ W} (h : Listed u) (hm : Moves u u') : Listed u' := by
  intro x src hx hr
  obtain ⟨src₀, hx₀, -, hkey⟩ := hm.some hx
  refine ⟨hx, ?_⟩
  rw [hm.slab, ← hkey]
  exact (h x src₀ hx₀ (by rwa [← hm.removed])).2

theorem Listed.step [DecidableEq κ] [DecidableEq W] {u u' : Sources.State κ W} (hw : Wf u)
    (h : Listed u) {b : Sources.Act κ W} (hb : Once u b) (hs : Sources.step u b = some u') :
    Listed u' := by
  have hwf : ∀ {s : Sources.State κ W}, Moves u s → Listed s := fun hm => h.moves hm
  cases Sources.step_cases hs with
  | pollerInsert => exact h
  | @insertIo x raw key _ hx hk =>
    intro y src hy hr
    by_cases hyx : y = x
    · subst hyx
      refine ⟨hy, ?_⟩
      simp only [State.insertIo, State.setSource, Function.update_self, Option.some.injEq] at hy
      rw [← hy]
      exact Function.update_self ..
    · have hy' : u.source y = some src := by
        simpa [State.insertIo, State.setSource, hyx] using hy
      have hslab := (h y src hy' hr).2
      have hkk : src.key ≠ key := by
        rintro rfl
        rw [hk] at hslab; cases hslab
      exact ⟨hy, by simpa [State.insertIo, hkk] using hslab⟩
  | @removeIo x src hx =>
    have hslab : u.slab src.key = some x := (h x src hx hb).2
    intro y src' hy hr
    unfold State.removeIo at hy hr ⊢
    simp only [hslab] at hy hr ⊢
    have hyx : y ≠ x := by
      rintro rfl
      simp at hr
    have hslab' : u.slab src'.key = some y := (h y src' hy (by simpa [hyx] using hr)).2
    have hkk : src'.key ≠ src.key := by
      intro he
      rw [he, hslab] at hslab'
      exact hyx (Option.some_inj.1 hslab').symm
    exact ⟨hy, by simpa [hkk] using hslab'⟩
  | close => exact h
  | pollReady hx _ hs => exact hwf (moves_pollReady hw hx hs)
  | react => exact hwf ⟨rfl, rfl, rfl, rfl, rfl, fun _ => rfl, fun hn => absurd rfl hn⟩
  | next hs => exact hwf (moves_reactStep hw hs)
  | @waitEvents _ tick =>
    exact hwf ⟨rfl, rfl, rfl, rfl, rfl, fun _ => rfl, fun _ => ⟨tick, Or.inl rfl⟩⟩
  | waitEmpty hr =>
    have hbatch := hw.batch
    rw [hr] at hbatch
    exact hwf ⟨rfl, rfl, rfl, rfl, rfl, fun _ => rfl, fun hn => by simpa using hbatch hn⟩
  | process hs => exact hwf (moves_process hs)

section Reach
variable [DecidableEq τ] [DecidableEq κ] [DecidableEq W] {s s' : State τ κ ε A W}

/-- The others do not remove a source twice, as `Async::into_inner` would. -/
def Single (s : State τ κ ε A W) : Act τ κ ε A W → Prop
  | .other b => Once s.sources b
  | _ => True

instance (s : State τ κ ε A W) : (a : Act τ κ ε A W) → Decidable (Single s a)
  | .other b => inferInstanceAs (Decidable (Once s.sources b))
  | .call .. | .poll .. | .resolve .. | .next _ | .socket .. | .nonblocking .. | .connect ..
  | .insert .. | .register .. | .ready .. | .check .. | .drop _ | .remove _ | .close _
  | .use .. => isTrue trivial

/-- The stage of the socket of a call or of the stream it has returned. -/
def State.stage (s : State τ κ ε A W) : τ → Stage κ := stages s.calls

/-- The invariant: every descriptor has one owner, and the sources know it. -/
structure Inv (s : State τ κ ε A W) : Prop where
  wf : Wf s.sources
  owned : Owned s.sources s.sockets s.stage
  listed : Listed s.sources

omit [DecidableEq τ] [DecidableEq κ] [DecidableEq W] in
theorem inv_init : Inv (init : State τ κ ε A W) where
  wf := wf_init
  owned := ⟨Owners.Exact.nil, fun _ => trivial⟩
  listed x src hx := by cases hx

omit [DecidableEq κ] in
/-- The move of the sources is the call's own, or one of the others. -/
theorem once_move {a : Act τ κ ε A W} {e : Effect τ κ ε A W} {b : Sources.Act κ W} (h : Inv s)
    (ha : Single s a) (he : Enabled s a e) (hb : e.move = some b) : Once s.sources b := by
  cases he with
  | other => cases hb; exact ha
  | @remove t c st k hc hp =>
    cases hb
    obtain ⟨-, -, -, hremoved, -⟩ : (Stage.live st).Ok s.sources := by
      have hok := h.owned.ok t
      rwa [State.stage, stages_some hc, hp] at hok
    exact hremoved
  | _ => cases hb <;> trivial

theorem Inv.step (h : Inv s) {a : Act τ κ ε A W} (ha : Single s a)
    (hs : Connect.step s a = some s') : Inv s' := by
  obtain ⟨e, he, hsockets, hcalls, hm⟩ := step_cases hs
  have hen := effect_cases he
  have hlife := life hen
  have howned : Owned s'.sources s'.sockets s'.stage := by
    rw [State.stage, hsockets, hcalls]
    exact ⟨exact_life h.owned.sockets hlife, ok_life h.wf h.owned hlife hm⟩
  obtain ⟨-, hu⟩ | ⟨b, hb, hu⟩ := hm
  · exact ⟨by rw [hu]; exact h.wf, howned, by rw [hu]; exact h.listed⟩
  · exact ⟨h.wf.step hu, howned, h.listed.step h.wf (once_move h ha hen hb) hu⟩

theorem inv_reach (h : system.Reach Single s) : Inv s :=
  h.inv (fun _ hs => hs ▸ inv_init) fun _ _ _ _ hi ha hs => hi.step ha hs

omit [DecidableEq τ] [DecidableEq κ] [DecidableEq W] in
/-- The descriptor of a registered source is held as a stream. -/
theorem Inv.holder (h : Inv s) {x : κ} {src : Source W} (hx : Registered s.sources x src)
    (hraw : src.raw ∈ s.sockets) : ∃ t, s.stage t = .live ⟨src.raw, x⟩ := by
  obtain ⟨hremoved, hclosed⟩ := h.wf.registered hx
  obtain ⟨hfds, hadding⟩ := h.wf.fds x src hx.1 hclosed
  obtain ⟨t, ht⟩ := h.owned.sockets.owner src.raw hraw
  have hok := h.owned.ok t
  -- an open source with this descriptor is `x`
  have hsame : ∀ st b, HasSource s.sources st b → st.io = src.raw → st.source = x := by
    rintro st b ⟨src', hx', hraw', -, hc'⟩ hio
    exact h.wf.raw st.source x src' src hx' hx.1 hc' hclosed (hraw'.trans hio)
  refine ⟨t, ?_⟩
  cases hst : s.stage t with
  | absent => rw [hst] at ht; cases ht
  | fresh raw =>
    rw [hst] at ht hok
    cases ht
    exact absurd hfds hok
  | added raw =>
    rw [hst] at ht hok
    cases ht
    exact absurd hok hadding
  | live st =>
    rw [hst] at ht hok
    obtain ⟨io, source⟩ := st
    have hio : io = src.raw := Option.some_inj.1 ht
    have hsource : source = x := hsame ⟨io, source⟩ false hok hio
    rw [hio, hsource]
  | removed st =>
    rw [hst] at ht hok
    have hsource : st.source = x := hsame st true hok (Option.some_inj.1 ht)
    obtain ⟨-, -, -, hr, -⟩ := hok
    rw [hsource, hremoved] at hr
    cases hr

/-- **No socket leaks.** In every run of any number of calls among all others that use the
    reactor, none of whom removes a source twice: each open socket made by the calls belongs to
    exactly one of them, which is in progress or has returned it; a stream has its descriptor
    open and registered with the reactor; and no other source has one of these descriptors.  A
    call that has returned an error, and one that was dropped, has left nothing. -/
theorem sockets_owned (h : system.Reach Single s) :
    (∀ raw ∈ s.sockets, ∃! t, (s.stage t).socket = some raw) ∧
      (∀ t st, s.stage t = .live st → st.io ∈ s.sockets ∧
        ∃ src, Registered s.sources st.source src ∧ src.raw = st.io) ∧
      ∀ x src, Registered s.sources x src → src.raw ∈ s.sockets →
        ∃ t, s.stage t = .live ⟨src.raw, x⟩ := by
  have hinv := inv_reach h
  refine ⟨fun raw hraw => hinv.owned.sockets.existsUnique hraw, fun t st ht => ?_,
    fun x src hx hraw => hinv.holder hx hraw⟩
  have hok := hinv.owned.ok t
  rw [ht] at hok
  obtain ⟨src, hx, hraw, hremoved, -⟩ := hok
  exact ⟨hinv.owned.sockets.mem t st.io (by rw [ht]; rfl), src, hinv.listed _ src hx hremoved, hraw⟩

/-- A TCP connect whose first address refuses and whose second answers; the first socket is
    closed, and its descriptor used again. -/
def connectSecond : List (Act (Fin 1) ℕ Unit ℕ ℕ) :=
  [.call 0 .tcp, .poll 0 7, .resolve 0 (.ok [80, 81]), .next 0, .socket 0 (.ok 5),
    .nonblocking 0 (.ok ()), .connect 0 (.err ()), .next 0, .socket 0 (.ok 5),
    .nonblocking 0 (.ok ()), .connect 0 .inProgress, .insert 0 (.ok ()), .register 0 9 0,
    .ready 0 (.ok ()), .other (.react []), .other .next,
    .other (.waitEvents [⟨5, 0, fun op => op = .write⟩]), .other .next, .other (.process true),
    .other .next, .other .next, .poll 0 7, .ready 0 (.ok ()), .check 0 (.ok none)]

theorem sockets_owned_second : ∃ s : State (Fin 1) ℕ Unit ℕ ℕ,
    system.run init connectSecond = some s ∧ s.sockets = [5] ∧ s.stage 0 = .live ⟨5, 9⟩ ∧
      ∃ src, Registered s.sources 9 src ∧ src.raw = 5 := by
  obtain ⟨s, hs, hsockets, hstage⟩ : ∃ s : State (Fin 1) ℕ Unit ℕ ℕ,
      system.run init connectSecond = some s ∧ s.sockets = [5] ∧ s.stage 0 = .live ⟨5, 9⟩ :=
    Lts.exists_run (by decide +kernel)
  have hm : system.Meets Single (init : State (Fin 1) ℕ Unit ℕ ℕ) connectSecond := by
    decide +kernel
  have howned := sockets_owned (.run (.init rfl) hm hs)
  exact ⟨s, hs, hsockets, hstage, (howned.2.1 0 _ hstage).2⟩

end Reach
end Awak.Connect
