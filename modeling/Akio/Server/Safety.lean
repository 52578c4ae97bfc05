import Akio.Event.History
import Akio.Server.Runs

/-!
# The loop never ends

Whatever `epoll_ctl` answers, in the callback of a client too. What is registered need not be what the flags of a
connection say then, but there is always a callback for it and a connection.
-/

namespace Akio.Server

open Buffer Socket Loop Demo
open Event (EV_NONE EV_RDABLE EV_WRABLE ev_event epoll epoll_wait Mirrors getEvent Direction)

variable {strerror gai_strerror : Int → String} {loop loop' : FullLoop callback data epoll} {u u' : state}
  {s : startup} {proc : process} {n m i : Nat} {fd : Int} {ans : answer} {cb : callback}
  {conn conn' : connection} {log : List Entry} {kind : Demo.Callback} {effect : Effect callback data Bool}

/-- The loop can call it, where there are `n` clients. -/
def Callable (n : Nat) (cb : callback) (data : Server.data) : Prop :=
  cb = .server_accept_cb ∨ cb ≠ .print_info ∧ ∃ i < n, data = some i

/-- What is registered has a callback that can be called. -/
structure Answerable (n : Nat) (loop : FullLoop callback data epoll) : Prop where
  setsize : loop.setsize = 100
  length : loop.events.length = 100
  mirrors : Mirrors loop.toevent_loop
  entry : ∀ fd ev (d : Direction), getEvent loop.toevent_loop fd = .done ev → ev.event &&& d.mask ≠ 0 →
    ∃ cb data, ev.slot d = some cb ∧ ev.data = some data ∧ Callable n cb data

/-- A call on the registry that keeps it so. -/
inductive Fine (n : Nat) : Effect callback data Bool → Prop where
  | create (willing : Bool) (fd : Int) (event : BitVec 32) (cb : callback) (i : Nat) (hevent : event ≠ EV_NONE)
      (hcb : cb ≠ .print_info) (hi : i < n) : Fine n (.event (.create willing fd event cb (some i)))
  | delete (willing : Bool) (fd : Int) (event : BitVec 32) (hfd : 0 ≤ fd) :
      Fine n (.event (.delete willing fd event))

theorem Callable.mono {data : Server.data} (h : Callable n cb data) (hle : n ≤ m) : Callable m cb data := by
  obtain hcb | ⟨hcb, i, hi, hdata⟩ := h
  · exact Or.inl hcb
  · exact Or.inr ⟨hcb, i, by omega, hdata⟩

theorem Callable.client {data : Server.data} (h : Callable n cb data) (hi : i < n) : Callable n cb (some i) := by
  obtain hcb | ⟨hcb, -⟩ := h
  · exact Or.inl hcb
  · exact Or.inr ⟨hcb, i, hi, rfl⟩

theorem Answerable.mono (h : Answerable n loop) (hle : n ≤ m) : Answerable m loop := by
  refine ⟨h.setsize, h.length, h.mirrors, fun fd ev d hget hdue => ?_⟩
  obtain ⟨cb, data, hslot, hdata, hcall⟩ := h.entry fd ev d hget hdue
  exact ⟨cb, data, hslot, hdata, hcall.mono hle⟩

theorem Answerable.size (h : Answerable n loop) : (loop.events.length : Int) = loop.setsize := by
  rw [h.length, h.setsize]
  rfl

/-! ## The calls on the registry -/

theorem Answerable.created {willing : Bool} {event : BitVec 32} {cb : callback} {r : Int}
    {registry : Event.event_loop callback data epoll} (h : Answerable n loop) (hevent : event ≠ EV_NONE)
    (hcb : cb ≠ .print_info) (hi : i < n)
    (hdone : Event.create_event Event.epoll.build willing loop.toevent_loop fd event cb (some i) =
      .done (registry, r)) : Answerable n { loop with toevent_loop := registry } := by
  have hc := Event.create_event_done hdone
  obtain ⟨hsize, hlength, -⟩ := hc.frame
  refine ⟨hsize.trans h.setsize, hlength.trans h.length, (h.mirrors.created hevent hc).1, ?_⟩
  intro fd' ev' d hget' hdue
  rcases hc.entry hget' hdue with ⟨-, hslot, hdata⟩ | ⟨-, ev, hget, hold, hslot, hdata⟩
  · exact ⟨cb, some i, hslot, hdata, Or.inr ⟨hcb, i, hi, rfl⟩⟩
  · obtain ⟨cb', data, hslot', hdata', hcall⟩ := h.entry fd' ev d hget hold
    rcases hdata with hsame | hnew
    · exact ⟨cb', data, hslot.trans hslot', hsame.trans hdata', hcall⟩
    · exact ⟨cb', some i, hslot.trans hslot', hnew, hcall.client hi⟩

theorem Answerable.deleted {willing : Bool} {event : BitVec 32} {r : Int}
    {registry : Event.event_loop callback data epoll} (h : Answerable n loop)
    (hdone : Event.delete_event Event.epoll.build willing loop.toevent_loop fd event = .done (registry, r)) :
    Answerable n { loop with toevent_loop := registry } := by
  have hd := Event.delete_event_done hdone
  obtain ⟨hsize, hlength, -⟩ := hd.frame
  refine ⟨hsize.trans h.setsize, hlength.trans h.length, (h.mirrors.deleted hd).1, ?_⟩
  intro fd' ev' d hget' hdue
  obtain ⟨-, ev, hget, hold, hslot, hdata⟩ := hd.entry hget' hdue
  obtain ⟨cb, data, hslot', hdata', hcall⟩ := h.entry fd' ev d hget hold
  exact ⟨cb, data, hslot.trans hslot', hdata.trans hdata', hcall⟩

theorem Answerable.fine (h : Answerable n loop) (hfine : Fine n effect) :
    ∃ registry log, runEffect Event.epoll.build loop effect =
        .done ({ loop with toevent_loop := registry }, log, [], []) ∧
      registry.timers = loop.timers ∧ Answerable n { loop with toevent_loop := registry } := by
  cases hfine with
  | create willing fd event cb i hevent hcb hi =>
    have hreturns : ∃ registry r, Event.create_event Event.epoll.build willing loop.toevent_loop fd event cb (some i) =
        .done (registry, r) := Event.create_event_returns trivial h.size willing event cb (some i)
    obtain ⟨registry, r, hdone⟩ := hreturns
    refine ⟨registry, if r = 0 then [.created fd event cb] else [], ?_, ?_, h.created hevent hcb hi hdone⟩
    · exact (congrArg (· >>= _) ((congrArg (· >>= _) hdone).trans rfl)).trans rfl
    · exact (Event.create_event_done hdone).frame.2.2
  | delete willing fd event hfd =>
    have hreturns : ∃ registry r, Event.delete_event Event.epoll.build willing loop.toevent_loop fd event =
        .done (registry, r) := Event.delete_event_returns trivial h.size hfd willing event
    obtain ⟨registry, r, hdone⟩ := hreturns
    refine ⟨registry, if r = 0 then [.deleted fd event] else [], ?_, ?_, h.deleted hdone⟩
    · exact (congrArg (· >>= _) ((congrArg (· >>= _) hdone).trans rfl)).trans rfl
    · exact (Event.delete_event_done hdone).frame.2.2

theorem Answerable.fine_all {effects : List (Effect callback data Bool)} (h : Answerable n loop)
    (hfine : ∀ effect ∈ effects, Fine n effect) :
    ∃ registry log, runEffects Event.epoll.build loop effects =
        .done ({ loop with toevent_loop := registry }, log, [], []) ∧
      registry.timers = loop.timers ∧ Answerable n { loop with toevent_loop := registry } := by
  induction effects generalizing loop with
  | nil => exact ⟨loop.toevent_loop, [], rfl, rfl, h⟩
  | cons effect effects ih =>
    obtain ⟨registry₁, log₁, hone, htimers₁, h₁⟩ := h.fine (hfine effect List.mem_cons_self)
    obtain ⟨registry, log, hrest, htimers, h'⟩ := ih h₁ fun e he => hfine e (List.mem_cons_of_mem _ he)
    refine ⟨registry, log₁ ++ log, ?_, htimers.trans htimers₁, h'⟩
    unfold runEffects
    rw [hone, Outcome.done_bind]
    dsimp only
    rw [hrest]
    rfl

/-! ## The callbacks -/

/-- What a callback leaves. -/
structure Leaves (n : Nat) (u : state) (effects : List (Effect callback data Bool)) : Prop where
  fds : u.fds.length = u.server.clients.length
  chains : ∃ f cs, Inv (worldOf u.server) [] f cs
  grows : n ≤ u.server.clients.length
  fine : ∀ effect ∈ effects, Fine u.server.clients.length effect

theorem fine_of_requests (ht : Turned conn conn' log kind) (hi : i < n) (hfd : 0 ≤ fd) (willing : Bool) :
    ∀ effect ∈ (requests log).flatMap (effectsOf id willing fd i), Fine n effect := by
  intro effect heffect
  rcases ht.asks with hasks | hasks | ⟨event, hasks⟩ <;> rw [hasks] at heffect
  · cases heffect
  · obtain rfl := List.mem_singleton.mp heffect
    exact .create willing fd EV_WRABLE .client_writecb i (by decide) (by decide) hi
  · obtain rfl := List.mem_singleton.mp heffect
    exact .delete willing fd event hfd

theorem clientCallback_leaves (hfds : u.fds.length = u.server.clients.length)
    (hchains : ∃ f cs, Inv (worldOf u.server) [] f cs) (hi : i < u.server.clients.length) (hfd : 0 ≤ fd)
    (ans : answer) (kind : Demo.Callback) :
    (clientCallback id u fd i ans kind).Ends fun q => Leaves u.server.clients.length q.1 q.2 := by
  apply (clientCallback_ends hchains (List.getElem?_eq_getElem hi) fd ans kind).mono
  rintro ⟨u', effects⟩ ⟨c', log, ht, heffects⟩
  dsimp only at ht heffects ⊢
  subst heffects
  have hlength : u'.server.clients.length = u.server.clients.length := by
    rw [ht.invoked.clients, List.length_set]
  refine ⟨?_, ht.invoked.inv, hlength.ge, ?_⟩
  · rw [hlength, ← hfds, ht.rest]
  · rw [hlength]
    exact fine_of_requests ht.turned hi hfd ans.willing

theorem acceptLoop_leaves (strerror : Int → String) {errno : Int} {written : Bool} {accepts : List accepted}
    (herrno : Retries errno) (hfds : u.fds.length = u.server.clients.length)
    (hchains : ∃ f cs, Inv (worldOf u.server) [] f cs) :
    (acceptLoop strerror id errno u written accepts).Ends fun q => Leaves u.server.clients.length q.1 q.2 := by
  induction accepts generalizing u written with
  | nil =>
    unfold acceptLoop
    rw [if_pos (show _ ∨ _ from herrno)]
    exact ⟨hfds, hchains, Nat.le_refl _, by simp⟩
  | cons a accepts ih =>
    obtain ⟨f, cs, hi⟩ := hchains
    unfold acceptLoop
    by_cases hopen : isOpen u.proc a.fd = true
    · rw [if_pos hopen]
      trivial
    · rw [if_neg hopen]
      obtain ⟨server, c, hadd, hclients, -, -, -, hchains'⟩ :=
        addClient_spec hi (isOpen (admitted strerror u.proc a) a.fd)
      have hlength : server.clients.length = u.server.clients.length + 1 := by
        rw [hclients, List.length_append, List.length_singleton]
      refine Eq.mpr (congrArg (Outcome.Ends _) ((congrArg (· >>= _) hadd).trans rfl)) ?_
      have hfds' : (u.fds ++ [(a.fd : Int)]).length = server.clients.length := by
        rw [List.length_append, List.length_singleton, hfds, hlength]
      apply (ih (u := { u with proc := admitted strerror u.proc a, server, fds := u.fds ++ [(a.fd : Int)] }) hfds'
        hchains').bind
      rintro ⟨u', effects⟩ hl
      have hgrows : server.clients.length ≤ u'.server.clients.length := hl.grows
      show Leaves u.server.clients.length u' (_ :: effects)
      refine ⟨hl.fds, hl.chains, by omega, ?_⟩
      intro effect heffect
      rcases List.mem_cons.mp heffect with rfl | heffect
      · exact .create _ a.fd EV_RDABLE .client_readcb u.fds.length (by decide) (by decide) (by omega)
      · exact hl.fine effect heffect

theorem event_callback_leaves (strerror : Int → String) {data : Server.data}
    (hfds : u.fds.length = u.server.clients.length)
    (hchains : ∃ f cs, Inv (worldOf u.server) [] f cs) (hcall : Callable u.server.clients.length cb data)
    (hfd : 0 ≤ fd) (herrno : Retries ans.errno) :
    ((program strerror id).event_callback cb fd data ans u).Ends fun q =>
      Leaves u.server.clients.length q.1 q.2 := by
  obtain rfl | ⟨hcb, i, hi, rfl⟩ := hcall
  · exact acceptLoop_leaves strerror herrno hfds hchains
  · cases cb with
    | server_accept_cb => exact acceptLoop_leaves strerror herrno hfds hchains
    | client_readcb => exact clientCallback_leaves hfds hchains hi hfd ans _
    | client_writecb => exact clientCallback_leaves hfds hchains hi hfd ans _
    | print_info => exact absurd rfl hcb

/-! ## Runs -/

/-- What holds between any two callbacks. -/
structure Sound (loop : FullLoop callback data epoll) (u : state) : Prop where
  fds : u.fds.length = u.server.clients.length
  chains : ∃ f cs, Inv (worldOf u.server) [] f cs
  answerable : Answerable u.server.clients.length loop
  ticking : Ticking loop.timers
  going : loop.stop = false

theorem keeps_sound : Keeps Event.epoll.build (program strerror id) Expected 100 Sound where
  length hs := by rw [hs.answerable.length]; rfl
  heap hs := by
    obtain ⟨v, f, hg, -⟩ := hs.ticking
    exact ⟨v, 1, f, [], hg⟩
  polled timeout hs hcan := by
    have hsize := hs.answerable.setsize
    apply (Event.epoll_poll_ends hs.answerable.mirrors hs.answerable.size hcan.poll timeout).mono
    rintro ⟨poller, actives⟩ ⟨rfl, hfds⟩
    exact ⟨hs, by rwa [hsize] at hfds⟩
  event := by
    rintro loop u fd ev d hs hget hdue
    obtain ⟨cb, data, hslot, hdata, hcall⟩ := hs.answerable.entry fd ev d hget hdue
    refine ⟨cb, data, hslot, hdata, fun round j hcan => ?_⟩
    have hfd := (Event.lt_of_get_event hget).1
    apply (event_callback_leaves strerror hs.fds hs.chains hcall hfd (hcan.errno j d)).mono
    rintro ⟨u', effects⟩ hl
    obtain ⟨registry, log, hrun, htimers, ha⟩ := (hs.answerable.mono hl.grows).fine_all hl.fine
    dsimp only
    rw [hrun]
    refine ⟨hl.fds, hl.chains, ha, ?_, hs.going⟩
    show Ticking registry.timers
    rw [htimers]
    exact hs.ticking
  timer := by
    rintro loop u te hs htop tick
    obtain ⟨heap, one, hfire, hticking, -, -⟩ := hs.ticking.fired strerror u htop tick
    rw [hfire]
    have ha := hs.answerable
    exact ⟨hs.fds, hs.chains, ⟨ha.setsize, ha.length, ha.mirrors.congr rfl rfl, ha.entry⟩, hticking, hs.going⟩

theorem Up.sound {base : Int → Prop} {heard : BitVec 32} (h : Up base heard loop u) : Sound loop u := by
  have hr := h.registered
  refine ⟨h.held.fds, h.held.chains, ⟨hr.setsize, hr.length, hr.mirrors, ?_⟩, hr.ticking, h.going⟩
  intro fd ev d hget hdue
  cases hr.owned fd ev hget (Event.ne_none_of_mask hdue) with
  | listener hfd hevent hread hdata =>
    rw [hevent] at hdue
    cases d with
    | read => exact ⟨_, _, hread, hdata, Or.inl rfl⟩
    | write => exact absurd rfl hdue
  | client i c hconn hfd hevent hread hwrite hdata =>
    have hi := (List.getElem?_eq_some_iff.mp hconn.held).1
    cases d with
    | read => exact ⟨_, _, hread hdue, hdata, Or.inr ⟨by decide, i, hi, rfl⟩⟩
    | write => exact ⟨_, _, hwrite hdue, hdata, Or.inr ⟨by decide, i, hi, rfl⟩⟩

/-- The loop that `main` starts does not return, and no call in it leaves defined behaviour, as long as `accept` fails
only where there is nobody to accept. Where it fails otherwise `server_accept_cb` prints what nothing was written to. -/
theorem serves_of_start
    (hmain : main strerror gai_strerror id Event.epoll.build (epoll.poller_create true) s proc =
      .done (some (loop, u))) :
    (∀ rounds, (∀ round ∈ rounds, Expected round) →
      event_loop_start Event.epoll.build (program strerror id) loop u rounds = .running) ∧
    ∀ fd data u ans, ans.accepts = [] → ¬ Retries ans.errno →
      (program strerror id).event_callback .server_accept_cb fd data ans u = .fault := by
  refine ⟨fun rounds hcan => ?_, fun fd data u ans => server_accept_cb_faults strerror id u⟩
  have hs := (main_up hmain).sound
  have hstart : ({ loop with stop := false } : FullLoop callback data epoll) = loop := by
    rw [← hs.going]
  unfold event_loop_start
  rw [hstart]
  exact startLoop_running keeps_sound (fun hs => hs.going) hcan hs

/-- The same round, where each `epoll_ctl` of a client's callback is refused. -/
def unwilling (round : Round answer epoll_wait) : Round answer epoll_wait :=
  { round with answers := fun j d => { round.answers j d with willing := false } }

theorem Expected.unwilling {round : Round answer epoll_wait} (h : Expected round) : Expected (unwilling round) :=
  ⟨h.poll, h.errno⟩

/-- A client cannot be registered for writing, and later on it is closed and stays registered. -/
theorem serves_sample :
    event_loop_start Event.epoll.build (program (fun _ => "") id) plainStart.1 plainStart.2
        [plainRound [3] [] [], unwilling (plainRound [4] [.bytes 1 [2, 3]] [.eagain]),
          unwilling (plainRound [4] [.error] []), plainRound [4] [.error] []] = .running ∧
      (program (fun _ => "") id).event_callback .server_accept_cb 3 none
        { inputs := [], outputs := [], close := none, accepts := [], errno := 24, willing := true } plainStart.2 =
          .fault := by
  obtain ⟨hruns, hfaults⟩ := serves_of_start plainMain_done
  refine ⟨hruns _ ?_, hfaults _ _ _ _ rfl (by unfold Retries; decide)⟩
  intro round hround
  have hplain (fds inputs outputs) := (granted_plain_round fds inputs outputs).toExpected
  simp only [List.mem_cons, List.not_mem_nil, or_false] at hround
  obtain rfl | rfl | rfl | rfl := hround
  · exact hplain ..
  · exact (hplain ..).unwilling
  · exact (hplain ..).unwilling
  · exact hplain ..

end Akio.Server
