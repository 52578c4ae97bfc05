import Akio.Loop.Only
import Akio.Server.Callbacks

/-!
# The server keeps going

What is kept by each callback is kept by the loop, from the moment `main` starts it.
-/

namespace Akio.Server

open Buffer Socket Loop Demo
open Event (EV_NONE EV_RDABLE EV_WRABLE ev_event epoll epoll_wait Mirrors Entered getEvent mask mask_of_event Direction
  Possible)

variable {base : Int → Prop} {heard : BitVec 32} {loop loop' : FullLoop callback data epoll} {u u' : state}
  {i : Nat} {c c' : client} {fd : Int} {ev : ev_event callback data} {log : List Entry} {strerror : Int → String}
  {d : Direction} {ans : answer}

/-! ## `print_info` -/

theorem connected_congr (hserver : u'.server = u.server) (hfds : u'.fds = u.fds) :
    Connected u' i c fd ↔ Connected u i c fd := by
  constructor
  · rintro ⟨hheld, hdescriptor, hopened⟩
    exact ⟨hserver ▸ hheld, hfds ▸ hdescriptor, hopened⟩
  · rintro ⟨hheld, hdescriptor, hopened⟩
    exact ⟨hserver ▸ hheld, hfds ▸ hdescriptor, hopened⟩

theorem Held.congr (hh : Held base u) (hproc : u'.proc = u.proc) (hsfd : u'.sfd = u.sfd)
    (hserver : u'.server = u.server) (hfds : u'.fds = u.fds) : Held base u' := by
  refine ⟨by rw [hfds, hserver]; exact hh.fds, by rw [hserver]; exact hh.chains, by rw [hsfd]; exact hh.listening,
    ?_, ?_⟩
  · intro fd
    simp only [hproc, connected_congr hserver hfds]
    exact hh.opens fd
  · intro i c fd
    simp only [connected_congr hserver hfds]
    exact hh.apart i c fd

theorem Registered.congr {timers : Timer.timer_heap callback data} (hr : Registered heard loop u)
    (hsfd : u'.sfd = u.sfd) (hserver : u'.server = u.server) (hfds : u'.fds = u.fds) (hticking : Ticking timers) :
    Registered heard { loop with timers } u' := by
  refine ⟨hr.setsize, hr.length, hr.mirrors.congr rfl rfl, by rw [hsfd]; exact hr.listener, ?_, ?_, hticking⟩
  · intro fd ev hget hsome
    cases hr.owned fd ev hget hsome with
    | listener hfd hevent hread hdata => exact .listener (hfd.trans hsfd.symm) hevent hread hdata
    | client i c hconn hfd hevent hread hwrite hdata =>
      exact .client i c ((connected_congr hserver hfds).mpr hconn) hfd hevent hread hwrite hdata
  · exact fun i c fd hc => hr.watched i c fd ((connected_congr hserver hfds).mp hc)

theorem Ticking.fired (strerror : Int → String) (u : state) (hticking : Ticking loop.timers) {te : Nat}
    (htop : Timer.heap_top loop.timers = .done (some te)) (tick : Tick answer) :
    ∃ heap one, fire Event.epoll.build (program strerror id) loop u te tick =
        .done ({ loop with timers := heap }, (print_info u).1, one, []) ∧ Ticking heap ∧
      Timer.heap_top heap = .done (some te) ∧ Timer.due heap.timers te = tick.later + 1000 := by
  obtain ⟨v, f, hg, hpayload⟩ := hticking
  obtain rfl : v 0 = te := by
    rw [Timer.heap_top_spec hg.heapOf] at htop
    exact Option.some.inj (Outcome.done.inj htop)
  have hm : Timer.Member v 1 (v 0) := ⟨0, by omega, rfl⟩
  have hlive := hg.heapOf.live hm
  obtain ⟨n, hn⟩ := Store.live_iff.mp hlive
  obtain ⟨hcb, hdata⟩ := Prod.mk.inj (Option.some.inj ((Timer.payload_of_cell hn).symm.trans hpayload))
  obtain ⟨heap, v', hadjust, hg', hmem, hdue⟩ := hg.rearm hm (tick.later + 1000)
  have hcall : (program strerror id).timer_callback n.cb n.data tick.answer u = .done ((print_info u).1, [], 1000) := by
    rw [hcb]
    rfl
  have hsame : v' 0 = v 0 := by
    obtain ⟨j, hj, heq⟩ := (hmem (v' 0)).mp ⟨0, by omega, rfl⟩
    obtain rfl : j = 0 := by omega
    exact heq.symm
  refine ⟨heap, ⟨v 0, n.when_msec, [], [], .rearmed⟩, ?_, ⟨v', f, hg', ?_⟩, ?_, by rw [hdue, Function.update_self]⟩
  · unfold fire
    rw [Store.read_of_cell hn, Outcome.done_bind, hcall, Outcome.done_bind]
    dsimp only
    have hnothing : runEffects Event.epoll.build loop ([] : List (Effect callback data Bool)) =
        .done (loop, [], [], []) := rfl
    rw [hnothing, Outcome.done_bind]
    dsimp only
    rw [if_neg (by decide), Store.modify_live hlive, Outcome.done_bind]
    exact (congrArg (· >>= _) hadjust).trans rfl
  · rw [hsame, Timer.heap_adjust_payload hadjust]
    have hretime : loop.timers.timers.modify (some (v 0)) (fun n => { n with when_msec := tick.later + 1000 }) =
        .done (Timer.retime loop.timers.timers (v 0) (tick.later + 1000)) := Store.modify_live hlive
    exact (congrFun (Timer.payload_modify hretime fun _ => rfl) (v 0)).trans hpayload
  · rw [Timer.heap_top_spec hg'.heapOf, hsame]
    rfl

/-! ## A callback of an event -/

/-- The callback of a client that is called. -/
def kindOf (ans : answer) : callback → Option Demo.Callback
  | .client_readcb => some (.read ans.inputs ans.outputs)
  | .client_writecb => some (.write ans.outputs)
  | _ => none

/-- What a callback that was called for `fd` did: new clients came, or it was that of the client `i`. -/
inductive Did (u : state) (fd : Int) (cb : callback) (data : Server.data) (ans : answer) (u' : state) : Prop where
  | grown (hg : Grown u u')
  | turned (i : Nat) (c c' : client) (kind : Demo.Callback) (log : List Entry) (hdata : data = some i)
      (hkind : kindOf ans cb = some kind) (hc : Connected u i c fd) (ht : Turn u i c fd ans kind u' c' log)
      (hdue : watch c.conn ≠ EV_NONE) (hwrite : ∀ outputs, kind = .write outputs → c.conn.writing = true)

theorem watch_write {conn : connection} (h : watch conn &&& EV_WRABLE ≠ 0) : conn.writing = true := by
  unfold watch at h
  cases hwriting : conn.writing with
  | true => rfl
  | false =>
    rw [hwriting] at h
    exfalso
    apply h
    cases conn.eof <;> rfl

theorem not_stop_of_requests : .stop ∉ (requests log).flatMap (effectsOf id ans.willing fd i) := by
  intro hin
  obtain ⟨e, -, he⟩ := List.mem_flatMap.mp hin
  cases e <;> simp [effectsOf] at he

theorem event_ends (strerror : Int → String) (hh : Held base u) (hr : Registered heard loop u)
    (hget : getEvent loop.toevent_loop fd = .done ev) (hdue : ev.event &&& d.mask ≠ 0) :
    ∃ cb data, ev.slot d = some cb ∧ ev.data = some data ∧
      ∀ ans, Retries ans.errno → ans.willing = true →
        ((program strerror id).event_callback cb fd data ans u).Ends fun q =>
          .stop ∉ q.2 ∧ (runEffects Event.epoll.build loop q.2).Ends fun r =>
            Held base q.1 ∧ Registered heard r.1 q.1 ∧ Did u fd cb data ans q.1 := by
  have hsome := Event.ne_none_of_mask hdue
  cases hr.owned fd ev hget hsome with
  | listener hfd hevent hread hdata =>
    have hd : d = .read := by
      rw [hevent] at hdue
      cases d with
      | read => rfl
      | write => exact absurd rfl hdue
    subst hd
    refine ⟨.server_accept_cb, none, hread, hdata, fun ans herrno hwilling => ?_⟩
    apply (acceptLoop_ends strerror herrno hh).mono
    rintro ⟨u', effects⟩ ⟨hh', hg, hall⟩
    obtain ⟨loop', log, hrun, hr'⟩ := (hr.grown hh hh' hg).creates_all hh' hall
    refine ⟨?_, ?_⟩
    · intro hin
      obtain ⟨willing, fd, i, heq, -⟩ := hall _ hin
      cases heq
    · dsimp only
      rw [hrun]
      exact ⟨hh', hr', .grown hg⟩
  | client i c hconn hfd hevent hread hwrite hdata =>
    have hturn (cb : callback) (ans : answer) (hwilling : ans.willing = true) (kind : Demo.Callback)
        (hkind : kindOf ans cb = some kind) (hdir : ∀ outputs, kind = .write outputs → d = .write) :
        (clientCallback id u fd i ans kind).Ends fun q =>
          .stop ∉ q.2 ∧ (runEffects Event.epoll.build loop q.2).Ends fun r =>
            Held base q.1 ∧ Registered heard r.1 q.1 ∧ Did u fd cb (some i) ans q.1 := by
      apply (clientCallback_ends hh.chains hconn.held fd ans kind).mono
      rintro ⟨u', effects⟩ ⟨c', log, ht, heffects⟩
      obtain ⟨loop', log', ev', hrun, hf⟩ := ht.follows hr hfd hwilling hget hevent hsome ⟨hread, hwrite, hdata⟩
      dsimp only at heffects ⊢
      rw [heffects, hrun]
      refine ⟨not_stop_of_requests, ht.held hh hconn, ht.registered hh hconn hfd hr hf, ?_⟩
      refine .turned i c c' kind log rfl hkind hconn ht (hevent ▸ hsome) fun outputs heq => ?_
      rw [hdir outputs heq, hevent] at hdue
      exact watch_write hdue
    cases d with
    | read =>
      exact ⟨.client_readcb, some i, hread hdue, hdata,
        fun ans _ hwilling => hturn _ ans hwilling _ rfl fun outputs heq => nomatch heq⟩
    | write =>
      exact ⟨.client_writecb, some i, hwrite hdue, hdata,
        fun ans _ hwilling => hturn _ ans hwilling _ rfl fun _ _ => rfl⟩

/-! ## The loop -/

/-- What holds between any two callbacks. -/
structure Up (base : Int → Prop) (heard : BitVec 32) (loop : FullLoop callback data epoll) (u : state) : Prop where
  held : Held base u
  registered : Registered heard loop u
  going : loop.stop = false

/-- The kernel reports only what it can, and an `accept` fails where there is nobody to accept, or is to be made
again. -/
structure Expected (round : Round answer epoll_wait) : Prop where
  poll : Possible round.poll
  errno : ∀ j d, Retries (round.answers j d).errno

/-- Besides no `epoll_ctl` of a client's callback is refused. -/
structure Granted (round : Round answer epoll_wait) : Prop extends Expected round where
  willing : ∀ j d, (round.answers j d).willing = true

/-- What the callbacks keep of the state of the program, the loop keeps too, also where it is not all of them that
are called. -/
theorem keeps_also {ok : callback → Int → data → answer → state → Bool} {Q : state → Prop}
    (hdid : ∀ {u fd cb data ans u'}, Held base u → Held base u' → Q u → ok cb fd data ans u = true →
      Did u fd cb data ans u' → Q u')
    (hprint : ∀ {u}, Q u → Q (print_info u).1) :
    Keeps Event.epoll.build ((program strerror id).only ok) Granted 100
      fun loop u => Up base heard loop u ∧ Q u where
  length hj := by rw [hj.1.registered.length]; rfl
  heap hj := by
    obtain ⟨v, f, hg, -⟩ := hj.1.registered.ticking
    exact ⟨v, 1, f, [], hg⟩
  polled timeout hj hcan := by
    have hr := hj.1.registered
    have hsize := hr.setsize
    apply (Event.epoll_poll_ends hr.mirrors (by rw [hr.length, hsize]; rfl) hcan.poll timeout).mono
    rintro ⟨poller, actives⟩ ⟨rfl, hfds⟩
    exact ⟨hj, by rwa [hsize] at hfds⟩
  event := by
    rintro loop u fd ev d ⟨hup, hq⟩ hget hdue
    obtain ⟨cb, data, hslot, hdata, hends⟩ := event_ends strerror hup.held hup.registered hget hdue
    refine ⟨cb, data, hslot, hdata, fun round j hcan => ?_⟩
    unfold Program.only
    dsimp only
    by_cases hok : ok cb fd data (round.answers j d) u = true
    · rw [if_pos hok]
      apply (hends _ (hcan.errno j d) (hcan.willing j d)).mono
      rintro ⟨u', effects⟩ ⟨hnone, hrun⟩
      obtain ⟨hruns, hreturns⟩ := Outcome.ends_iff.mp hrun
      refine Outcome.ends_iff.mpr ⟨hruns, ?_⟩
      rintro ⟨loop', log, created, deleted⟩ hdone
      obtain ⟨hh', hr', hdid'⟩ := hreturns _ hdone
      exact ⟨⟨hh', hr', (runEffects_stop hnone hdone).trans hup.going⟩, hdid hup.held hh' hq hok hdid'⟩
    · rw [if_neg hok]
      trivial
  timer := by
    rintro loop u te ⟨hup, hq⟩ htop tick
    obtain ⟨heap, one, hfire, hticking, -, -⟩ := hup.registered.ticking.fired strerror u htop tick
    rw [show fire Event.epoll.build ((program strerror id).only ok) loop u te tick = _ from hfire]
    exact ⟨⟨hup.held.congr rfl rfl rfl rfl, hup.registered.congr rfl rfl rfl hticking, hup.going⟩, hprint hq⟩

end Akio.Server
