import Akio.Demo.Turn
import Akio.Event.Granted
import Akio.Server.Accept
import Akio.Timer.Payload

/-!
# What the server keeps

An open client has a descriptor of its own, and what is registered for the descriptor is what the flags of the
connection say. With epoll that is what the kernel watches.
-/

namespace Akio.Server

open Buffer Socket Loop Demo
open Event (EV_NONE EV_RDABLE EV_WRABLE ev_event epoll Mirrors Entered getEvent mask mask_of_event)

variable {base : Int → Prop} {heard : BitVec 32} {loop loop' : FullLoop callback data epoll} {u u' : state}
  {i j : Nat} {c c' : client} {fd fd' : Int} {ev : ev_event callback data}

/-- The client `i` is open and has the descriptor `fd`. -/
structure Connected (u : state) (i : Nat) (c : client) (fd : Int) : Prop where
  held : u.server.clients[i]? = some c
  descriptor : u.fds[i]? = some fd
  opened : c.opened = true

/-- The descriptors and the chains. Those of `base` were open before there were clients. -/
structure Held (base : Int → Prop) (u : state) : Prop where
  fds : u.fds.length = u.server.clients.length
  chains : ∃ f cs, Inv (worldOf u.server) [] f cs
  listening : base u.sfd
  opens : ∀ fd, isOpen u.proc fd = true ↔ base fd ∨ ∃ i c, Connected u i c fd
  apart : ∀ i c fd, Connected u i c fd → ¬ base fd ∧ ∀ j c', Connected u j c' fd → j = i

/-- Who an entry is for. -/
inductive Owned (u : state) (fd : Int) (ev : ev_event callback data) : Prop where
  | listener (hfd : fd = u.sfd) (hevent : ev.event = EV_RDABLE) (hread : ev.read = some .server_accept_cb)
      (hdata : ev.data = some none)
  | client (i : Nat) (c : client) (hconn : Connected u i c fd) (hfd : 1 ≤ fd) (hevent : ev.event = watch c.conn)
      (hread : ev.event &&& EV_RDABLE ≠ 0 → ev.read = some .client_readcb)
      (hwrite : ev.event &&& EV_WRABLE ≠ 0 → ev.write = some .client_writecb) (hdata : ev.data = some (some i))

/-- The only timer is the one of `print_info`. -/
def Ticking (heap : Timer.timer_heap callback data) : Prop :=
  ∃ v f, Timer.Good heap v 1 f [] ∧ Timer.payload heap.timers (v 0) = some (.print_info, none)

/-- The registry. A client that could not be registered stays unheard. -/
structure Registered (heard : BitVec 32) (loop : FullLoop callback data epoll) (u : state) : Prop where
  setsize : loop.setsize = 100
  length : loop.events.length = 100
  mirrors : Mirrors loop.toevent_loop
  listener : mask loop.toevent_loop u.sfd = heard
  owned : ∀ fd ev, getEvent loop.toevent_loop fd = .done ev → ev.event ≠ EV_NONE → Owned u fd ev
  watched : ∀ i c fd, Connected u i c fd →
    mask loop.toevent_loop fd = watch c.conn ∨ mask loop.toevent_loop fd = EV_NONE ∧ Unheard c
  ticking : Ticking loop.timers

/-! ## Descriptors -/

theorem Connected.unique (h : Connected u i c fd) (h' : Connected u i c' fd') : c = c' ∧ fd = fd' :=
  ⟨Option.some.inj (h.held.symm.trans h'.held), Option.some.inj (h.descriptor.symm.trans h'.descriptor)⟩

theorem Held.ne_listener (hh : Held base u) (hc : Connected u i c fd) : fd ≠ u.sfd := by
  rintro rfl
  exact (hh.apart i c u.sfd hc).1 hh.listening

theorem connected_set {server : server} {proc : process} (hclients : server.clients = u.server.clients.set i c')
    (hc : Connected u i c fd) {x : client} :
    Connected { u with server, proc } j x fd' ↔
      j ≠ i ∧ Connected u j x fd' ∨ j = i ∧ x = c' ∧ fd' = fd ∧ c'.opened = true := by
  have hlt : i < u.server.clients.length := (List.getElem?_eq_some_iff.mp hc.held).1
  constructor
  · rintro ⟨hclient, hfd, hopened⟩
    rw [show ({ u with server, proc } : state).server.clients = u.server.clients.set i c' from hclients] at hclient
    by_cases hji : j = i
    · subst hji
      rw [List.getElem?_set_self hlt] at hclient
      obtain rfl := Option.some.inj hclient
      exact Or.inr ⟨rfl, rfl, Option.some.inj (hfd.symm.trans hc.descriptor), hopened⟩
    · rw [List.getElem?_set_ne (Ne.symm hji)] at hclient
      exact Or.inl ⟨hji, hclient, hfd, hopened⟩
  · rintro (⟨hji, hclient, hfd, hopened⟩ | ⟨rfl, rfl, rfl, hopened⟩)
    · refine ⟨?_, hfd, hopened⟩
      rw [show ({ u with server, proc } : state).server.clients = u.server.clients.set i c' from hclients,
        List.getElem?_set_ne (Ne.symm hji)]
      exact hclient
    · refine ⟨?_, hc.descriptor, hopened⟩
      rw [show ({ u with server, proc } : state).server.clients = u.server.clients.set j x from hclients,
        List.getElem?_set_self hlt]

/-! ## The registry -/

theorem Registered.entered (hr : Registered heard loop u) (he : Entered loop.toevent_loop loop'.toevent_loop fd ev)
    (hfd : fd ≠ u.sfd) (hsfd : u'.sfd = u.sfd)
    (hothers : ∀ i c fd', fd' ≠ fd → (Connected u' i c fd' ↔ Connected u i c fd'))
    (howned : ev.event ≠ EV_NONE → Owned u' fd ev)
    (hwatched : ∀ i c, Connected u' i c fd → ev.event = watch c.conn ∨ ev.event = EV_NONE ∧ Unheard c) :
    Registered heard loop' u' := by
  have hmask : ∀ fd', fd' ≠ fd → mask loop'.toevent_loop fd' = mask loop.toevent_loop fd' := by
    intro fd' hne
    unfold mask
    rw [he.other fd' hne]
  refine ⟨he.setsize.trans hr.setsize, ?_, he.mirrors, ?_, ?_, ?_, ?_⟩
  · rw [he.length]
    exact hr.length
  · rw [hsfd, hmask _ (Ne.symm hfd)]
    exact hr.listener
  · intro fd' ev' hget hsome
    by_cases hne : fd' = fd
    · subst hne
      obtain rfl := Outcome.done.inj (he.event.symm.trans hget)
      exact howned hsome
    · rw [he.other fd' hne] at hget
      cases hr.owned fd' ev' hget hsome with
      | listener hfd' hevent hread hdata => exact .listener (hfd'.trans hsfd.symm) hevent hread hdata
      | client i c hconn hfd hevent hread hwrite hdata =>
        exact .client i c ((hothers i c fd' hne).mpr hconn) hfd hevent hread hwrite hdata
  · intro i c fd' hconn
    by_cases hne : fd' = fd
    · subst hne
      rw [mask_of_event he.event]
      exact hwatched i c hconn
    · rw [hmask fd' hne]
      exact hr.watched i c fd' ((hothers i c fd' hne).mp hconn)
  · rw [he.timers]
    exact hr.ticking

theorem Registered.refl_entered (hr : Registered heard loop u) (hget : getEvent loop.toevent_loop fd = .done ev) :
    Entered loop.toevent_loop loop.toevent_loop fd ev :=
  ⟨hget, fun _ _ => rfl, rfl, rfl, rfl, hr.mirrors⟩

end Akio.Server
