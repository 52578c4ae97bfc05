import Akio.Server.Up

/-!
# How `main` starts the loop
-/

namespace Akio.Server

open Buffer Socket Loop Demo
open Event (EV_NONE EV_RDABLE EV_WRABLE ev_event epoll Mirrors Entered getEvent mask mask_of_event armed)

variable {strerror gai_strerror : Int → String} {proc : process} {loop : FullLoop callback data epoll} {u : state}
  {s : startup} {fd : Int}

/-- A descriptor that is returned is open. -/
def Opened (r : process × Int) : Prop := 0 ≤ r.2 → isOpen r.1 r.2 = true

theorem Opened.failed : Opened (proc, -1) := fun h => absurd h (by show ¬ (0 : Int) ≤ -1; omega)

theorem serveLoop_opened {servinfo : List addrinfo} : Opened (serveLoop strerror proc servinfo) := by
  induction servinfo generalizing proc with
  | nil => exact .failed
  | cons p servinfo ih =>
    unfold serveLoop
    cases p.socket with
    | error errno => exact ih
    | ok n =>
      have hopen : isOpen (tcp_accept proc (.ok n)).1 n = true := by rw [isOpen_accept, if_pos rfl]
      dsimp only [socket]
      rw [if_neg (by omega)]
      split_ifs
      · exact .failed
      · exact .failed
      · exact .failed
      · exact fun _ => (isOpen_congr (by simp [tcp_accept, socket])).trans hopen

theorem tcp_server_serve_opened {answer : Except Int (List addrinfo)} :
    Opened (tcp_server_serve strerror gai_strerror proc answer) := by
  unfold tcp_server_serve
  cases answer with
  | error rv => exact .failed
  | ok servinfo =>
    intro h
    refine (Ledger.live_release (a := Resource.servinfo)).trans ?_
    rw [if_neg (by simp)]
    exact serveLoop_opened h

theorem ticking_created {heap heap' : Timer.timer_heap callback data} {te : Ptr} {clock : Int}
    (hnew : Timer.timer_heap_create true true 10 = some heap)
    (hdone : Timer.create_timer true true clock heap 1000 (some .print_info) none = .done (heap', te)) :
    Ticking heap' := by
  have hg := Timer.new_good hnew
  obtain ⟨heap₁, te₁, v, n, f, l, hdone₁, hg₁, hgranted, -, -, hmem, -⟩ :=
    Timer.create_timer_spec true true clock hg (show 1000 > Timer.EV_TIMER_END by decide) callback.print_info none
  obtain ⟨rfl, rfl⟩ := Prod.mk.inj (Outcome.done.inj (hdone.symm.trans hdone₁))
  obtain rfl := (hgranted (Or.inl rfl)).1
  have hpayload := Timer.create_timer_payload hg hdone
  obtain ⟨rfl, hnow⟩ : te = some 0 ∧ heap'.now = 1 := by
    obtain rfl := Option.some.inj hnew
    cases hdone
    exact ⟨rfl, rfl⟩
  obtain rfl : n = 1 := by
    have := hg₁.heapOf.now
    omega
  have hzero : v 0 = 0 := by
    rcases (hmem (v 0)).mp ⟨0, by omega, rfl⟩ with heq | ⟨j, hj, -⟩
    · exact (Option.some.inj heq).symm
    · omega
  refine ⟨v, f, hg₁, ?_⟩
  rw [hzero]
  exact hpayload 0 rfl

theorem registered_created {registry registry' : Event.event_loop callback data epoll} {willing : Bool} {r : Int}
    (hm : Mirrors registry) (hsize : registry.setsize = 100) (hlength : registry.events.length = 100)
    (hnone : ∀ fd, mask registry fd = EV_NONE) (hticking : Ticking registry.timers)
    (hempty : ∀ {i c fd}, ¬ Connected u i c fd)
    (hdone : Event.create_event Event.epoll.build willing registry u.sfd EV_RDABLE .server_accept_cb none =
      .done (registry', r)) (stop : Bool) :
    Registered (mask registry' u.sfd) { toevent_loop := registry', stop } u := by
  have hevent : EV_RDABLE ≠ EV_NONE := by decide
  have hc := Event.create_event_done hdone
  have hm' := (hm.created hevent hc).1
  have hunowned {fd : Int} {ev : ev_event callback data} (hget : getEvent registry fd = .done ev)
      (hsome : ev.event ≠ EV_NONE) : Owned u fd ev := absurd ((mask_of_event hget).symm.trans (hnone fd)) hsome
  cases hc with
  | refused hfd => exact ⟨hsize, hlength, hm', rfl, fun _ _ => hunowned, fun _ _ _ hx => (hempty hx).elim, hticking⟩
  | failed hfd hget hadd hq =>
    exact ⟨hsize, hlength, hm', rfl, fun _ _ hget => hunowned hget, fun _ _ _ hx => (hempty hx).elim, hticking⟩
  | @added poller ev hfd hget hadd =>
    refine ⟨hsize, ?_, hm', rfl, ?_, fun _ _ _ hx => (hempty hx).elim, hticking⟩
    · dsimp only
      rw [List.length_set]
      exact hlength
    · intro fd ev' hget' hsome
      rw [Event.getEvent_set hget rfl] at hget'
      split_ifs at hget' with hfd'
      · obtain rfl := Outcome.done.inj hget'
        refine .listener hfd' ?_ rfl rfl
        show ev.event ||| EV_RDABLE = EV_RDABLE
        rw [(mask_of_event hget).symm.trans (hnone _)]
        rfl
      · exact hunowned hget' hsome

/-- What `main` did where it started the loop. -/
structure Started (s : startup) (loop : FullLoop callback data epoll) (u : state)
    (registry : Event.event_loop callback data epoll) (timers : Timer.timer_heap callback data) : Prop where
  opened : isOpen u.proc u.sfd = true
  chains : ∃ pool, buffer_pool_create true 100 = some pool ∧ u.server = ⟨⟨pool, 0, 0⟩, []⟩
  fds : u.fds = []
  unprinted : u.prev_recv = 0 ∧ u.prev_send = 0 ∧ u.printed = []
  new : Event.event_loop_create true (epoll.poller_create true) (Timer.timer_heap_create true true 10) 100 =
    some registry
  timer : ∃ te, Timer.create_timer true true s.clock registry.timers 1000 (some .print_info) none = .done (timers, te)
  event : ∃ r, Event.create_event Event.epoll.build s.willing { registry with timers } u.sfd EV_RDABLE .server_accept_cb
    none = .done (loop.toevent_loop, r)
  going : loop.stop = false

theorem main_started (hmain : main strerror gai_strerror id Event.epoll.build (epoll.poller_create true) s proc =
    .done (some (loop, u))) : ∃ registry timers, Started s loop u registry timers := by
  obtain ⟨pool, hpool, hmain⟩ := Outcome.bind_eq_done.mp hmain
  have hserved : Opened (tcp_server_serve strerror gai_strerror proc s.getaddrinfo) := tcp_server_serve_opened
  generalize tcp_server_serve strerror gai_strerror proc s.getaddrinfo = served at hmain hserved
  obtain ⟨proc₁, sfd⟩ := served
  dsimp only at hmain
  split_ifs at hmain with hfd hblock hdelay
  · cases hmain
  · cases hmain
  · cases hmain
  obtain ⟨registry, hnew, hmain⟩ := Outcome.bind_eq_done.mp hmain
  obtain ⟨⟨timers, te⟩, htimer, hmain⟩ := Outcome.bind_eq_done.mp hmain
  obtain ⟨⟨registry', r⟩, hcreate, hpure⟩ := Outcome.bind_eq_done.mp hmain
  cases hpure
  exact ⟨registry, timers, (isOpen_congr (by simp)).trans (hserved (by omega)),
    ⟨pool, Outcome.ofOption_eq_done.mp hpool, rfl⟩, rfl, ⟨rfl, rfl, rfl⟩, Outcome.ofOption_eq_done.mp hnew,
    ⟨te, htimer⟩, ⟨r, hcreate⟩, rfl⟩

theorem Started.not_connected {registry : Event.event_loop callback data epoll}
    {timers : Timer.timer_heap callback data} {i : Nat} {c : client} (hs : Started s loop u registry timers) :
    ¬ Connected u i c fd := by
  obtain ⟨pool, -, hserver⟩ := hs.chains
  intro hc
  have hheld := hc.held
  rw [hserver] at hheld
  cases hheld

theorem Started.up {registry : Event.event_loop callback data epoll} {timers : Timer.timer_heap callback data}
    (hs : Started s loop u registry timers) :
    Up (fun fd => isOpen u.proc fd = true) (mask loop.toevent_loop u.sfd) loop u := by
  obtain ⟨pool, hpool, hserver⟩ := hs.chains
  obtain ⟨te, htimer⟩ := hs.timer
  obtain ⟨r, hcreate⟩ := hs.event
  have hnone := Event.new_mask hs.new
  obtain ⟨-, -, hsize, -, hevents⟩ := Event.event_loop_create_some hs.new
  have hheap : Timer.timer_heap_create true true 10 = some registry.timers := by
    obtain rfl := Option.some.inj hs.new
    rfl
  refine ⟨⟨by rw [hs.fds, hserver]; rfl, ⟨[], [], ?_⟩, hs.opened, ?_, ?_⟩, ?_, hs.going⟩
  · rw [hserver]
    exact new_inv hpool
  · exact fun fd => ⟨Or.inl, fun h => h.elim id fun ⟨i, c, hc⟩ => (hs.not_connected hc).elim⟩
  · exact fun i c fd hc => (hs.not_connected hc).elim
  · have hm : Mirrors { registry with timers } := (Event.new_mirrors hs.new).congr rfl rfl
    refine registered_created hm hsize ?_ hnone (ticking_created hheap htimer) (fun hc => hs.not_connected hc) hcreate
      loop.stop
    rw [hevents]
    rfl

theorem main_up (hmain : main strerror gai_strerror id Event.epoll.build (epoll.poller_create true) s proc =
    .done (some (loop, u))) :
    Up (fun fd => isOpen u.proc fd = true) (mask loop.toevent_loop u.sfd) loop u := by
  obtain ⟨registry, timers, hs⟩ := main_started hmain
  exact hs.up

end Akio.Server
