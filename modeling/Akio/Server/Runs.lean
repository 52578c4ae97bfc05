import Akio.Loop.Only
import Akio.Server.Main

/-!
# Every run of the server

The loop that `main` starts, whatever the peers send, the calls answer and the kernel reports, as long as no
`epoll_ctl` of a client's callback is refused.
-/

namespace Akio.Server

open Buffer Socket Loop Demo
open Event (EV_NONE EV_RDABLE EV_WRABLE EPOLLIN EPOLLOUT epoll epoll_wait Mirrors getEvent mask Possible)

variable {strerror gai_strerror : Int → String} {proc : process} {loop loop' : FullLoop callback data epoll}
  {u u' : state} {s₀ : FullLoop callback data epoll × state} {s : startup} {i : Nat} {c : client} {fd : Int}
  {prog : Program callback data Bool state answer}

/-- `main` started the loop in the state `s₀`, and it came to `loop` and `u`. -/
structure Reached (strerror gai_strerror : Int → String) (prog : Program callback data Bool state answer)
    (s₀ : FullLoop callback data epoll × state) (loop : FullLoop callback data epoll) (u : state) : Prop where
  started : ∃ s proc,
    main strerror gai_strerror id Event.epoll.build (epoll.poller_create true) s proc = .done (some s₀)
  run : ∃ rounds, Run (Loop.Served Event.epoll.build prog Granted) s₀ rounds (loop, u)

/-- Where only some calls of the callbacks return, the server comes to no other states. -/
theorem Reached.of_only {ok : callback → Int → data → answer → state → Bool}
    (h : Reached strerror gai_strerror ((program strerror id).only ok) s₀ loop u) :
    Reached strerror gai_strerror (program strerror id) s₀ loop u := by
  obtain ⟨rounds, hrun⟩ := h.run
  exact ⟨h.started, rounds, hrun.mono fun _ _ _ hserved => hserved.within ((program strerror id).only_within ok)⟩

theorem Reached.up (h : Reached strerror gai_strerror (program strerror id) s₀ loop u) :
    Up (fun fd => isOpen s₀.2.proc fd = true) (mask s₀.1.toevent_loop s₀.2.sfd) loop u := by
  obtain ⟨s, proc, hmain⟩ := h.started
  obtain ⟨rounds, hrun⟩ := h.run
  rw [← Program.only_true (program strerror id)] at hrun
  exact ((keeps_also (Q := fun _ => True) (fun _ _ _ _ _ => trivial) fun _ => trivial).of_run
    ⟨main_up hmain, trivial⟩ hrun).1

theorem Reached.also {ok : callback → Int → data → answer → state → Bool} {Q : state → Prop}
    (h : Reached strerror gai_strerror ((program strerror id).only ok) s₀ loop u) (hq : Q s₀.2)
    (hdid : ∀ {u fd cb data ans u'}, Held (fun fd => isOpen s₀.2.proc fd = true) u →
      Held (fun fd => isOpen s₀.2.proc fd = true) u' → Q u → ok cb fd data ans u = true →
      Did u fd cb data ans u' → Q u')
    (hprint : ∀ {u}, Q u → Q (print_info u).1) : Q u := by
  obtain ⟨s, proc, hmain⟩ := h.started
  obtain ⟨rounds, hrun⟩ := h.run
  exact ((keeps_also hdid hprint).of_run ⟨main_up hmain, hq⟩ hrun).2

/-! ## A run -/

/-- One address, and no call fails. -/
def plainStartup : startup where
  getaddrinfo := .ok [{ socket := .ok 3, setsockopt := none, getfl := .ok 2#32, setfl := fun _ => none, connect := none
                        bind := none, listen := none, close := none }]
  getfl := .ok 2#32
  setfl := fun _ => none
  nodelay := none
  clock := 0
  willing := true

def plainMain : Outcome (Option (FullLoop callback data epoll × state)) :=
  main (fun _ => "") (fun _ => "") id Event.epoll.build (epoll.poller_create true) plainStartup ⟨0, none, []⟩

def plainStart : FullLoop callback data epoll × state := (plainMain.toOption.bind id).get (by rfl)

theorem plainMain_done : plainMain = .done (some plainStart) := rfl

/-- The kernel reports the descriptors of `fds` that it watches, in both directions. -/
def waitOn (fds : List Int) : epoll_wait := fun set maxevents _ =>
  if fds.length ≤ maxevents then
    some (fds.filterMap fun fd => (set fd).map fun ee => { ee with events := EPOLLIN ||| EPOLLOUT })
  else none

theorem possible_wait_on (fds : List Int) : Possible (waitOn fds) := by
  intro set maxevents timeout reported hreported
  unfold waitOn at hreported
  split_ifs at hreported with hroom
  obtain rfl := Option.some.inj hreported
  constructor
  · apply Int.le_trans _ hroom
    exact Int.ofNat_le.mpr (List.length_filterMap_le _ fds)
  · intro e he
    obtain ⟨fd, -, hfd⟩ := List.mem_filterMap.mp he
    obtain ⟨ee, hee, rfl⟩ := Option.map_eq_some_iff.mp hfd
    exact ⟨fd, ee, hee, rfl⟩

/-- The callbacks that are called meet `inputs`, `outputs` and a client on descriptor 4. No timer is due. -/
def plainRound (fds : List Int) (inputs : List Input) (outputs : List Output) : Round answer epoll_wait where
  clock := 0
  poll := waitOn fds
  answers := fun _ _ =>
    { inputs, outputs, close := none, errno := EAGAIN, willing := true
      accepts := [{ fd := 4, getfl := .ok 2#32, setfl := fun _ => none, closeBlocking := none, nodelay := none
                    closeDelayed := none, willing := true }] }
  ticks := [⟨0, { inputs := [], outputs := [], close := none, accepts := [], errno := EAGAIN, willing := true }, 0⟩]

theorem granted_plain_round (fds : List Int) (inputs : List Input) (outputs : List Output) :
    Granted (plainRound fds inputs outputs) :=
  ⟨⟨possible_wait_on fds, fun _ _ => Or.inl rfl⟩, fun _ _ => rfl⟩

def serve (prog : Program callback data Bool state answer) (s : FullLoop callback data epoll × state)
    (round : List Int × List Input × List Output) : Option (FullLoop callback data epoll × state) :=
  (process_events Event.epoll.build prog (plainRound round.1 round.2.1 round.2.2) s.1 s.2).toOption.map fun r =>
    (r.1, r.2.1)

theorem served_of_serve {s s' : FullLoop callback data epoll × state} {round : List Int × List Input × List Output}
    (h : serve prog s round = some s') :
    Loop.Served Event.epoll.build prog Granted s (plainRound round.1 round.2.1 round.2.2) s' := by
  obtain ⟨r, hr, rfl⟩ := Option.map_eq_some_iff.mp h
  exact ⟨granted_plain_round .., r.2.2, Outcome.toOption_eq_some.mp hr⟩

theorem reached_of_serve {prog : Program callback data Bool state answer}
    {rounds : List (List Int × List Input × List Output)} {s : FullLoop callback data epoll × state}
    (h : rounds.foldlM (serve prog) plainStart = some s) :
    Reached (fun _ => "") (fun _ => "") prog plainStart s.1 s.2 := by
  have hrun : Run (fun s round s' => Loop.Served Event.epoll.build prog Granted s
      (plainRound round.1 round.2.1 round.2.2) s') plainStart rounds s :=
    Run.of_foldlM (fun _ _ _ => served_of_serve) h
  exact ⟨⟨_, _, plainMain_done⟩, _, hrun.map (g := fun round : List Int × List Input × List Output =>
    plainRound round.1 round.2.1 round.2.2) fun _ _ _ h => h⟩

/-- A client came, sent three bytes and ended its input. What it sent went out after that. -/
def plainRounds : List (List Int × List Input × List Output) :=
  [([3], [], []), ([4], [.bytes 1 [2, 3]], [.eagain]), ([4], [.eof], [.takes 2])]

theorem ended_reached :
    ∃ loop u c s', Reached (fun _ => "") (fun _ => "") (program (fun _ => "") id) plainStart loop u ∧
      Connected u 0 c 4 ∧ c.conn.eof = true ∧ c.conn.writing = false ∧ c.sent = c.received ∧
      Loop.Served Event.epoll.build (program (fun _ => "") id) Granted (loop, u) (plainRound [4] [] []) s' := by
  have hfacts : ((plainRounds.foldlM (serve (program (fun _ => "") id)) plainStart).bind fun s =>
      s.2.server.clients[0]?.map fun c => decide (s.2.fds[0]? = some 4 ∧ c.opened = true ∧ c.conn.eof = true ∧
        c.conn.writing = false ∧ c.sent = c.received ∧
        (serve (program (fun _ => "") id) s ([4], [], [])).isSome = true)) = some true := by decide +kernel
  obtain ⟨s, hs, hfacts⟩ := Option.bind_eq_some_iff.mp hfacts
  obtain ⟨c, hc, hfacts⟩ := Option.map_eq_some_iff.mp hfacts
  obtain ⟨hfd, hopened, heof, hwriting, hecho, hnext⟩ := of_decide_eq_true hfacts
  obtain ⟨s', hs'⟩ := Option.isSome_iff_exists.mp hnext
  exact ⟨s.1, s.2, c, s', reached_of_serve hs, ⟨hc, hfd, hopened⟩, heof, hwriting, hecho,
    served_of_serve hs'⟩

/-! ## What the kernel watches -/

/-- The kernel watches the descriptor of a connection for what its flags say. -/
structure Watches (poller : epoll) (fd : Int) (conn : connection) : Prop where
  present : (poller.interest fd).isSome ↔ conn.eof = false ∨ conn.writing = true
  data : ∀ ee ∈ poller.interest fd, ee.fd = fd
  read : ∀ ee ∈ poller.interest fd, ee.events &&& EPOLLIN ≠ 0 ↔ conn.eof = false
  write : ∀ ee ∈ poller.interest fd, ee.events &&& EPOLLOUT ≠ 0 ↔ conn.writing = true

theorem watch_read {conn : connection} : watch conn &&& EV_RDABLE ≠ 0 ↔ conn.eof = false := by
  unfold watch
  cases conn.eof <;> cases conn.writing <;> decide

theorem watch_write_iff {conn : connection} : watch conn &&& EV_WRABLE ≠ 0 ↔ conn.writing = true := by
  unfold watch
  cases conn.eof <;> cases conn.writing <;> decide

theorem watch_none {conn : connection} : watch conn ≠ EV_NONE ↔ conn.eof = false ∨ conn.writing = true := by
  unfold watch
  cases conn.eof <;> cases conn.writing <;> decide

theorem watches_of_mask {conn : connection} (hm : Mirrors loop.toevent_loop)
    (hmask : mask loop.toevent_loop fd = watch conn) : Watches loop.poller fd conn := by
  refine ⟨?_, ?_, ?_, ?_⟩
  · rw [hm.present fd, hmask, watch_none]
  · exact fun ee hee => (hm.watched fd ee hee).data
  · intro ee hee
    rw [(hm.watched fd ee hee).read, hmask, watch_read]
  · intro ee hee
    rw [(hm.watched fd ee hee).write, hmask, watch_write_iff]

/-- In every state the kernel watches the listener and open connections only, and each of those for what its flags
say, but for one that could not be registered: nothing ever happened on it. -/
theorem interest_of_reached (h : Reached strerror gai_strerror (program strerror id) s₀ loop u) :
    (∀ fd, (loop.poller.interest fd).isSome → fd = u.sfd ∨ ∃ i c, Connected u i c fd) ∧
    ∀ i c fd, Connected u i c fd →
      Watches loop.poller fd c.conn ∨ loop.poller.interest fd = none ∧ Unheard c := by
  have hr := h.up.registered
  constructor
  · intro fd hsome
    have hmask := (hr.mirrors.present fd).mp hsome
    obtain ⟨h0, hlt⟩ := Event.range_of_mask hmask
    obtain ⟨ev, hget⟩ := Event.getEvent_of_lt loop.toevent_loop h0 hlt
    rw [Event.mask_of_event hget] at hmask
    cases hr.owned fd ev hget hmask with
    | listener hfd => exact Or.inl hfd
    | client i c hconn => exact Or.inr ⟨i, c, hconn⟩
  · intro i c fd hc
    rcases hr.watched i c fd hc with hmask | ⟨hnone, hnew⟩
    · exact Or.inl (watches_of_mask hr.mirrors hmask)
    · refine Or.inr ⟨?_, hnew⟩
      rw [← Option.not_isSome_iff_eq_none, hr.mirrors.present fd]
      exact not_not.mpr hnone

theorem interest_sample :
    ∃ (loop : FullLoop callback data epoll) (u : state) (c : client), Connected u 0 c 4 ∧ c.conn.eof = true ∧
      (∀ fd, (loop.poller.interest fd).isSome → fd = u.sfd ∨ ∃ i c, Connected u i c fd) ∧
      ∀ i c fd, Connected u i c fd → Watches loop.poller fd c.conn ∨ loop.poller.interest fd = none ∧ Unheard c := by
  obtain ⟨loop, u, c, s', hreached, hc, heof, -⟩ := ended_reached
  exact ⟨loop, u, c, hc, heof, interest_of_reached hreached⟩

/-! ## Descriptors -/

/-- In every state the descriptors that the server opened and did not close are those of its open clients, each has its
own, and none of those that were open before was closed. -/
theorem descriptors_of_reached (h : Reached strerror gai_strerror (program strerror id) s₀ loop u) :
    (∀ fd, isOpen u.proc fd = true ↔ isOpen s₀.2.proc fd = true ∨ ∃ i c, Connected u i c fd) ∧
    ∀ i c fd, Connected u i c fd → isOpen s₀.2.proc fd = false ∧ ∀ j c', Connected u j c' fd → j = i := by
  have hh := h.up.held
  refine ⟨hh.opens, fun i c fd hc => ?_⟩
  obtain ⟨hbase, hunique⟩ := hh.apart i c fd hc
  exact ⟨Bool.not_eq_true _ ▸ hbase, hunique⟩

theorem descriptors_sample :
    ∃ u c, Connected u 0 c 4 ∧
      (∀ fd, isOpen u.proc fd = true ↔ isOpen plainStart.2.proc fd = true ∨ ∃ i c, Connected u i c fd) ∧
      ∀ i c fd, Connected u i c fd →
        isOpen plainStart.2.proc fd = false ∧ ∀ j c', Connected u j c' fd → j = i := by
  obtain ⟨loop, u, c, s', hreached, hc, -⟩ := ended_reached
  exact ⟨u, c, hc, descriptors_of_reached hreached⟩

/-! ## Connections that are never closed -/

/-- A connection whose input ended and that has nothing to write is not watched any more. From then on nothing changes
it, and it is never closed. -/
theorem half_closed_stays (h : Reached strerror gai_strerror (program strerror id) s₀ loop u)
    (hc : Connected u i c fd) (heof : c.conn.eof = true) (hwriting : c.conn.writing = false)
    {rounds : List (Round answer epoll_wait)}
    (hrun : Run (Loop.Served Event.epoll.build (program strerror id) Granted) (loop, u) rounds (loop', u')) :
    Connected u' i c fd ∧ loop'.poller.interest fd = none ∧ isOpen u'.proc fd = true := by
  have hdone : watch c.conn = EV_NONE := by
    unfold watch
    rw [heof, hwriting]
    rfl
  have hkeeps : Keeps Event.epoll.build ((program strerror id).only fun _ _ _ _ _ => true) Granted 100
      fun loop u => Up (fun fd => isOpen s₀.2.proc fd = true) (mask s₀.1.toevent_loop s₀.2.sfd) loop u ∧
        Connected u i c fd := by
    refine keeps_also (fun hh _ hc _ hdid => ?_) fun hc => ⟨hc.held, hc.descriptor, hc.opened⟩
    cases hdid with
    | grown hg => exact hg.connected hc
    | turned j x x' kind log hdata hkind hx ht hdue hwrite =>
      refine (ht.connected hx).mpr (Or.inl ⟨?_, hc⟩)
      rintro rfl
      obtain ⟨rfl, -⟩ := hc.unique hx
      exact hdue hdone
  obtain ⟨hup, hc'⟩ := hkeeps.of_run (s := (loop, u)) ⟨h.up, hc⟩ hrun
  refine ⟨hc', ?_, (hup.held.opens fd).mpr (Or.inr ⟨i, c, hc'⟩)⟩
  have hr := hup.registered
  rw [← Option.not_isSome_iff_eq_none, hr.mirrors.present fd, not_not]
  rcases hr.watched i c fd hc' with hmask | ⟨hnone, -⟩
  · exact hmask.trans hdone
  · exact hnone

theorem half_closed_sample :
    ∃ (c : client) (loop' : FullLoop callback data epoll) (u' : state), c.sent = c.received ∧
      Connected u' 0 c 4 ∧ loop'.poller.interest 4 = none ∧ isOpen u'.proc 4 = true := by
  obtain ⟨loop, u, c, s', hreached, hc, heof, hwriting, hsent, hserved⟩ := ended_reached
  exact ⟨c, s'.1, s'.2, hsent, half_closed_stays hreached hc heof hwriting (Run.nil.snoc hserved)⟩

end Akio.Server
