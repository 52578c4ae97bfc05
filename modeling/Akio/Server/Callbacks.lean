import Akio.Loop.Keeps
import Akio.Server.Registry

/-!
# The callbacks of the server

Each keeps the descriptors and the chains, and the calls on the loop that it makes keep the registry.
-/

namespace Akio.Server

open Buffer Socket Loop Demo
open Event (EV_NONE EV_RDABLE EV_WRABLE ev_event epoll Mirrors Entered getEvent mask mask_of_event armed)

variable {base : Int → Prop} {heard : BitVec 32} {loop loop' : FullLoop callback data epoll} {u u' : state}
  {i j : Nat} {c c' : client} {fd fd' : Int} {ev : ev_event callback data} {log : List Entry} {strerror : Int → String}
  {kind : Demo.Callback} {ans : answer} {errno : Int} {written : Bool}

/-! ## The callbacks of a client -/

/-- The state after a callback of the client `i`. -/
structure Turn (u : state) (i : Nat) (c : client) (fd : Int) (ans : answer) (kind : Demo.Callback) (u' : state)
    (c' : client) (log : List Entry) : Prop where
  done : Demo.invoke u.server i kind = .done (u'.server, log)
  invoked : Invoked u.server i c kind u'.server log c'
  turned : Turned c.conn c'.conn log kind
  received : c'.received = c.received ++ log.flatMap Entry.received
  sent : c'.sent = c.sent ++ log.flatMap Entry.sent
  rest : u' = { u with server := u'.server, proc := if .close ∈ log then close u.proc fd ans.close else u.proc }

theorem effects_of_requests (willing : Bool) (fd : Int) (i : Nat) (log : List Entry) :
    log.flatMap (effectsOf id willing fd i) = (requests log).flatMap (effectsOf id willing fd i) := by
  induction log with
  | nil => rfl
  | cons e log ih =>
    cases e with
    | create_event event => exact congrArg (.event (.create willing fd event .client_writecb (some i)) :: ·) ih
    | delete_event event => exact congrArg (.event (.delete willing fd event) :: ·) ih
    | recv _ _ | send _ _ | charge _ _ | shutdown _ | close => exact ih

theorem clientCallback_ends (hchains : ∃ f cs, Inv (worldOf u.server) [] f cs)
    (hc : u.server.clients[i]? = some c) (fd : Int) (ans : answer) (kind : Demo.Callback) :
    (clientCallback id u fd i ans kind).Ends fun q => ∃ c' log, Turn u i c fd ans kind q.1 c' log ∧
      q.2 = (requests log).flatMap (effectsOf id ans.willing fd i) := by
  obtain ⟨f, cs, hi⟩ := hchains
  have hends := Outcome.ends_iff.mp (invoke_spec hi hc kind)
  unfold clientCallback
  apply (show (Demo.invoke u.server i kind).Ends (fun r => Demo.invoke u.server i kind = .done r) from
    Outcome.ends_iff.mpr ⟨hends.1, fun _ h => h⟩).bind
  rintro ⟨server, log⟩ hdone
  obtain ⟨c', hinvoked⟩ := hends.2 _ hdone
  have hcalled := hdone
  unfold Demo.invoke at hcalled
  rw [hc, Outcome.ofOption_some, Outcome.done_bind] at hcalled
  obtain ⟨⟨statics, conn, log⟩, hrun, hpure⟩ := Outcome.bind_eq_done.mp hcalled
  cases hpure
  have hlt : i < u.server.clients.length := (List.getElem?_eq_some_iff.mp hc).1
  have hsame := congrArg (·[i]?) hinvoked.clients
  dsimp only at hsame
  rw [List.getElem?_set_self hlt, List.getElem?_set_self hlt] at hsame
  obtain rfl := Option.some.inj hsame
  exact ⟨_, log, ⟨hdone, hinvoked, runCallback_turned hrun, rfl, rfl, rfl⟩, effects_of_requests ans.willing fd i log⟩

theorem Turn.connected (ht : Turn u i c fd ans kind u' c' log) (hc : Connected u i c fd) {x : client} :
    Connected u' j x fd' ↔ j ≠ i ∧ Connected u j x fd' ∨ j = i ∧ x = c' ∧ fd' = fd ∧ .close ∉ log := by
  have hopened : c'.opened = true ↔ .close ∉ log := by
    rw [ht.invoked.opened, hc.opened]
    simp
  rw [ht.rest, ← hopened]
  exact connected_set ht.invoked.clients hc

theorem Turn.held (ht : Turn u i c fd ans kind u' c' log) (hh : Held base u) (hc : Connected u i c fd) :
    Held base u' := by
  have hsfd : u'.sfd = u.sfd := by rw [ht.rest]
  have hfds : u'.fds = u.fds := by rw [ht.rest]
  have hproc : u'.proc = if .close ∈ log then close u.proc fd ans.close else u.proc := by rw [ht.rest]
  refine ⟨?_, ht.invoked.inv, hsfd ▸ hh.listening, ?_, ?_⟩
  · rw [hfds, ht.invoked.clients, List.length_set]
    exact hh.fds
  · intro fd'
    have hopen := hh.opens fd'
    simp only [ht.connected hc]
    rw [hproc]
    by_cases hclosed : .close ∈ log
    · rw [if_pos hclosed, isOpen_close]
      by_cases hfd : fd = fd'
      · subst hfd
        rw [if_pos rfl]
        refine iff_of_false Bool.false_ne_true ?_
        rintro (hbase | ⟨j, x, ⟨hji, hx⟩ | ⟨-, -, -, hnot⟩⟩)
        · exact (hh.apart i c fd hc).1 hbase
        · exact hji ((hh.apart i c fd hc).2 j x hx)
        · exact hnot hclosed
      · rw [if_neg hfd, hopen]
        refine or_congr_right ⟨?_, ?_⟩
        · rintro ⟨j, x, hx⟩
          exact ⟨j, x, Or.inl ⟨fun hji => hfd (hji ▸ hx |>.unique hc).2.symm, hx⟩⟩
        · rintro ⟨j, x, ⟨-, hx⟩ | ⟨-, -, heq, -⟩⟩
          · exact ⟨j, x, hx⟩
          · exact absurd heq.symm hfd
    · rw [if_neg hclosed, hopen]
      refine or_congr_right ⟨?_, ?_⟩
      · rintro ⟨j, x, hx⟩
        by_cases hji : j = i
        · subst hji
          obtain ⟨rfl, rfl⟩ := hx.unique hc
          exact ⟨j, c', Or.inr ⟨rfl, rfl, rfl, hclosed⟩⟩
        · exact ⟨j, x, Or.inl ⟨hji, hx⟩⟩
      · rintro ⟨j, x, ⟨-, hx⟩ | ⟨rfl, -, rfl, -⟩⟩
        · exact ⟨j, x, hx⟩
        · exact ⟨j, c, hc⟩
  · intro j x fd' hx
    rcases (ht.connected hc).mp hx with ⟨hji, hold⟩ | ⟨rfl, rfl, rfl, hnot⟩
    · refine ⟨(hh.apart j x fd' hold).1, fun m y hy => ?_⟩
      rcases (ht.connected hc).mp hy with ⟨-, hy⟩ | ⟨rfl, -, rfl, -⟩
      · exact (hh.apart j x fd' hold).2 m y hy
      · exact absurd ((hh.apart m c fd' hc).2 j x hold) hji
    · refine ⟨(hh.apart j c fd' hc).1, fun m y hy => ?_⟩
      rcases (ht.connected hc).mp hy with ⟨-, hy⟩ | ⟨rfl, -⟩
      · exact (hh.apart j c fd' hc).2 m y hy
      · rfl

/-! ## What it asks of the registry -/

/-- The entry is for the client `i`. -/
structure Serves (ev : ev_event callback data) (i : Nat) : Prop where
  read : ev.event &&& EV_RDABLE ≠ 0 → ev.read = some .client_readcb
  write : ev.event &&& EV_WRABLE ≠ 0 → ev.write = some .client_writecb
  data : ev.data = some (some i)

/-- The entry of the client after its callback. Nothing is registered for one that was closed. -/
structure Followed (loop loop' : FullLoop callback data epoll) (fd : Int) (i : Nat) (c' : client) (log : List Entry)
    (ev : ev_event callback data) : Prop where
  entered : Entered loop.toevent_loop loop'.toevent_loop fd ev
  closed : .close ∈ log → ev.event = EV_NONE
  opened : .close ∉ log → ev.event = watch c'.conn ∧ Serves ev i

theorem runEffects_act {act : Event.Act callback data Bool} {registry : Event.event_loop callback data epoll}
    {log : List (Event.Entry callback data)}
    (hact : Event.runAct Event.epoll.build loop.toevent_loop act = .done (registry, log)) :
    runEffects Event.epoll.build loop [.event act] = .done ({ loop with toevent_loop := registry }, log, [], []) := by
  have hone : runEffect Event.epoll.build loop (.event act) =
      .done ({ loop with toevent_loop := registry }, log, [], []) := (congrArg (· >>= _) hact).trans rfl
  unfold runEffects
  rw [hone]
  exact congrArg (fun log => Outcome.done (_, log, [], [])) (List.append_nil log)

theorem and_of_clear {x y z : BitVec 32} (h : x &&& ~~~y &&& z ≠ 0) : x &&& z ≠ 0 := by
  intro hnone
  apply h
  rw [BitVec.and_assoc, BitVec.and_comm (~~~y), ← BitVec.and_assoc, hnone]
  exact BitVec.zero_and

theorem follows_delete (hr : Registered heard loop u) (hget : getEvent loop.toevent_loop fd = .done ev)
    (hsome : ev.event ≠ EV_NONE) (hs : Serves ev i) (event : BitVec 32)
    (hclosed : .close ∈ log → ev.event &&& ~~~event = EV_NONE)
    (hopened : .close ∉ log → ev.event &&& ~~~event = watch c'.conn) :
    ∃ loop' log' ev',
      runEffects Event.epoll.build loop [.event (.delete true fd event)] = .done (loop', log', [], []) ∧
      Followed loop loop' fd i c' log ev' := by
  have hsize : (loop.events.length : Int) = loop.setsize := by rw [hr.length, hr.setsize]; rfl
  obtain ⟨registry, hdone, he⟩ := Event.delete_event_grants hr.mirrors hsize hget hsome event
  have hact : Event.runAct Event.epoll.build loop.toevent_loop (.delete true fd event) =
      .done (registry, [.deleted fd event]) := (congrArg (· >>= _) hdone).trans rfl
  refine ⟨_, _, _, runEffects_act hact, he, hclosed, fun h => ⟨hopened h, ?_, ?_, hs.data⟩⟩
  · exact fun hread => hs.read (and_of_clear hread)
  · exact fun hwrite => hs.write (and_of_clear hwrite)

theorem follows_create (hr : Registered heard loop u) (hget : getEvent loop.toevent_loop fd = .done ev)
    (hfd : 1 ≤ fd) (hs : Serves ev i) (hopen : .close ∉ log) (hwatch : ev.event ||| EV_WRABLE = watch c'.conn) :
    ∃ loop' log' ev', runEffects Event.epoll.build loop
        [.event (.create true fd EV_WRABLE .client_writecb (some i))] = .done (loop', log', [], []) ∧
      Followed loop loop' fd i c' log ev' := by
  have hsize : (loop.events.length : Int) = loop.setsize := by rw [hr.length, hr.setsize]; rfl
  have hlt : fd < loop.setsize := by
    rw [← hsize]
    exact (Event.lt_of_get_event hget).2
  obtain ⟨registry, hdone, he⟩ := Event.create_event_grants hr.mirrors hsize ⟨hfd, hlt⟩
    (show EV_WRABLE ≠ EV_NONE by decide) hget callback.client_writecb (some i)
  have hact : Event.runAct Event.epoll.build loop.toevent_loop (.create true fd EV_WRABLE .client_writecb (some i)) =
      .done (registry, [.created fd EV_WRABLE .client_writecb]) := (congrArg (· >>= _) hdone).trans rfl
  refine ⟨_, _, _, runEffects_act hact, he, fun h => absurd h hopen, fun _ => ⟨hwatch, ?_, fun _ => rfl, rfl⟩⟩
  intro hread
  refine hs.read fun hnone => hread ?_
  show (ev.event ||| EV_WRABLE) &&& EV_RDABLE = 0
  rw [BitVec.and_or_distrib_right, hnone]
  rfl

theorem Turn.follows (ht : Turn u i c fd ans kind u' c' log) (hr : Registered heard loop u) (hfd : 1 ≤ fd)
    (hwilling : ans.willing = true) (hget : getEvent loop.toevent_loop fd = .done ev)
    (hevent : ev.event = watch c.conn) (hsome : ev.event ≠ EV_NONE) (hs : Serves ev i) :
    ∃ loop' log' ev', runEffects Event.epoll.build loop ((requests log).flatMap (effectsOf id ans.willing fd i)) =
        .done (loop', log', [], []) ∧ Followed loop loop' fd i c' log ev' := by
  rw [hwilling]
  have hquiet (hopen : .close ∉ log) (hsame : watch c'.conn = watch c.conn) : Followed loop loop fd i c' log ev :=
    ⟨hr.refl_entered hget, fun h => absurd h hopen, fun _ => ⟨hevent.trans hsame.symm, hs⟩⟩
  cases ht.turned with
  | waits hopen hasks heof hold hwriting =>
    rw [hasks]
    exact ⟨loop, [], ev, rfl, hquiet hopen (by unfold watch; rw [heof, hold, hwriting])⟩
  | echoes hopen hasks heof hold hwriting =>
    rw [hasks]
    exact ⟨loop, [], ev, rfl, hquiet hopen (by unfold watch; rw [heof, hold, hwriting])⟩
  | continues hopen hasks heof hwriting =>
    rw [hasks]
    exact ⟨loop, [], ev, rfl, hquiet hopen (by unfold watch; rw [heof, hwriting])⟩
  | starts hopen hasks heof hold hwriting =>
    rw [hasks]
    apply follows_create hr hget hfd hs hopen
    rw [hevent]
    unfold watch
    rw [heof, hold, hwriting]
    cases c.conn.eof <;> rfl
  | ends hopen hasks heof hwriting =>
    rw [hasks]
    apply follows_delete hr hget hsome hs EV_RDABLE (fun h => absurd h hopen)
    intro _
    rw [hevent]
    unfold watch
    rw [heof, hwriting]
    cases c.conn.eof <;> cases c.conn.writing <;> rfl
  | drains hopen hasks heof hwriting =>
    rw [hasks]
    apply follows_delete hr hget hsome hs EV_WRABLE (fun h => absurd h hopen)
    intro _
    rw [hevent]
    unfold watch
    rw [heof, hwriting]
    cases c.conn.eof <;> cases c.conn.writing <;> rfl
  | closes hclosed hasks =>
    rw [hasks]
    apply follows_delete hr hget hsome hs (EV_RDABLE ||| EV_WRABLE) _ (fun h => absurd hclosed h)
    intro _
    rw [hevent]
    unfold watch
    cases c.conn.eof <;> cases c.conn.writing <;> rfl

theorem Turn.registered {ev : ev_event callback data} (ht : Turn u i c fd ans kind u' c' log)
    (hh : Held base u) (hc : Connected u i c fd) (hfd : 1 ≤ fd) (hr : Registered heard loop u)
    (hf : Followed loop loop' fd i c' log ev) : Registered heard loop' u' := by
  refine hr.entered hf.entered (hh.ne_listener hc) (by rw [ht.rest]) ?_ ?_ ?_
  · intro j x fd' hne
    rw [ht.connected hc]
    constructor
    · rintro (⟨-, hx⟩ | ⟨-, -, heq, -⟩)
      · exact hx
      · exact absurd heq hne
    · exact fun hx => Or.inl ⟨fun hji => hne (hji ▸ hx |>.unique hc).2, hx⟩
  · intro hsome
    have hopen : .close ∉ log := fun h => hsome (hf.closed h)
    obtain ⟨hevent, hs⟩ := hf.opened hopen
    exact .client i c' ((ht.connected hc).mpr (Or.inr ⟨rfl, rfl, rfl, hopen⟩)) hfd hevent hs.read hs.write hs.data
  · intro j x hx
    rcases (ht.connected hc).mp hx with ⟨hji, hx⟩ | ⟨-, rfl, -, hopen⟩
    · exact absurd ((hh.apart i c fd hc).2 j x hx) hji
    · exact Or.inl (hf.opened hopen).1

/-! ## `server_accept_cb` -/

/-- What is counted, and what was printed of it. -/
def figures (u : state) : BitVec 64 × BitVec 64 × BitVec 64 × BitVec 64 × List report :=
  (u.server.statics.recv_total, u.server.statics.send_total, u.prev_recv, u.prev_send, u.printed)

/-- Clients came, on descriptors that were not open, and nothing happened on them yet. -/
structure Grown (u u' : state) : Prop where
  sfd : u'.sfd = u.sfd
  clients : ∃ more, u'.server.clients = u.server.clients ++ more ∧ ∀ c ∈ more, Unheard c
  fds : ∃ more, u'.fds = u.fds ++ more
  figures : figures u' = figures u

/-- A call of `create_event` that is granted only for an open client. -/
def Creates (u : state) (effect : Effect callback data Bool) : Prop :=
  ∃ willing fd i, effect = .event (.create willing fd EV_RDABLE .client_readcb (some i)) ∧
    (willing = true → ∃ c, Connected u i c fd ∧ Unheard c)

theorem Grown.refl : Grown u u := ⟨rfl, ⟨[], by simp, by simp⟩, ⟨[], by simp⟩, rfl⟩

theorem Grown.trans {u₂ : state} (h : Grown u u') (h' : Grown u' u₂) : Grown u u₂ := by
  obtain ⟨more, hmore, hnew⟩ := h.clients
  obtain ⟨more', hmore', hnew'⟩ := h'.clients
  obtain ⟨fds, hfds⟩ := h.fds
  obtain ⟨fds', hfds'⟩ := h'.fds
  refine ⟨h'.sfd.trans h.sfd, ⟨more ++ more', by rw [hmore', hmore, List.append_assoc], ?_⟩,
    ⟨fds ++ fds', by rw [hfds', hfds, List.append_assoc]⟩, h'.figures.trans h.figures⟩
  intro c hc
  rcases List.mem_append.mp hc with hc | hc
  · exact hnew c hc
  · exact hnew' c hc

theorem Grown.connected (hg : Grown u u') (hc : Connected u i c fd) : Connected u' i c fd := by
  obtain ⟨more, hmore, -⟩ := hg.clients
  obtain ⟨fds, hfds⟩ := hg.fds
  refine ⟨?_, ?_, hc.opened⟩
  · rw [hmore, List.getElem?_append_left (List.getElem?_eq_some_iff.mp hc.held).1]
    exact hc.held
  · rw [hfds, List.getElem?_append_left (List.getElem?_eq_some_iff.mp hc.descriptor).1]
    exact hc.descriptor

theorem Grown.cases (hg : Grown u u') (hfds : u.fds.length = u.server.clients.length) (hc : Connected u' i c fd) :
    Connected u i c fd ∨ u.server.clients.length ≤ i ∧ Unheard c := by
  obtain ⟨more, hmore, hnew⟩ := hg.clients
  obtain ⟨fds, hfds'⟩ := hg.fds
  have hheld := hc.held
  have hdescriptor := hc.descriptor
  by_cases hlt : i < u.server.clients.length
  · left
    rw [hmore, List.getElem?_append_left hlt] at hheld
    rw [hfds', List.getElem?_append_left (by omega)] at hdescriptor
    exact ⟨hheld, hdescriptor, hc.opened⟩
  · right
    rw [hmore, List.getElem?_append_right (by omega)] at hheld
    exact ⟨by omega, hnew c (List.mem_of_getElem? hheld)⟩

theorem Creates.grown {effect : Effect callback data Bool} (h : Creates u effect) (hg : Grown u u') :
    Creates u' effect := by
  obtain ⟨willing, fd, i, heq, hopen⟩ := h
  refine ⟨willing, fd, i, heq, fun hw => ?_⟩
  obtain ⟨c, hc, hnew⟩ := hopen hw
  exact ⟨c, hg.connected hc, hnew⟩

theorem admit_spec (strerror : Int → String) {a : accepted} (hh : Held base u) (hfresh : isOpen u.proc a.fd = false) :
    ∃ server, addClient u.server (isOpen (admitted strerror u.proc a) a.fd) = .done server ∧
      Held base { u with proc := admitted strerror u.proc a, server, fds := u.fds ++ [(a.fd : Int)] } ∧
      Grown u { u with proc := admitted strerror u.proc a, server, fds := u.fds ++ [(a.fd : Int)] } ∧
      Creates { u with proc := admitted strerror u.proc a, server, fds := u.fds ++ [(a.fd : Int)] }
        (.event (.create (a.willing && isOpen (admitted strerror u.proc a) a.fd) a.fd EV_RDABLE .client_readcb
          (some u.fds.length))) := by
  obtain ⟨f, cs, hi⟩ := hh.chains
  obtain ⟨server, c, hadd, hclients, hopened, hnew, htotals, hinv⟩ :=
    addClient_spec hi (isOpen (admitted strerror u.proc a) a.fd)
  let u' : state := { u with proc := admitted strerror u.proc a, server, fds := u.fds ++ [(a.fd : Int)] }
  have hclients' : u'.server.clients = u.server.clients ++ [c] := hclients
  have hfds' : u'.fds = u.fds ++ [(a.fd : Int)] := rfl
  have hg : Grown u u' := by
    refine ⟨rfl, ⟨[c], hclients, by simpa using hnew⟩, ⟨[(a.fd : Int)], rfl⟩, ?_⟩
    unfold figures
    rw [htotals.1, htotals.2]
  have hlast {j : Nat} {x : client} {fd : Int} (hx : Connected u' j x fd) :
      Connected u j x fd ∨ j = u.server.clients.length ∧ x = c ∧ fd = a.fd := by
    rcases hg.cases hh.fds hx with hold | ⟨hge, -⟩
    · exact Or.inl hold
    · right
      have hlt := (List.getElem?_eq_some_iff.mp hx.held).1
      rw [hclients', List.length_append, List.length_singleton] at hlt
      obtain rfl : j = u.server.clients.length := by omega
      have hheld := hx.held
      have hdescriptor := hx.descriptor
      rw [hclients', List.getElem?_concat_length] at hheld
      rw [hfds', ← hh.fds, List.getElem?_concat_length] at hdescriptor
      exact ⟨rfl, (Option.some.inj hheld).symm, (Option.some.inj hdescriptor).symm⟩
  have hself (hopen : isOpen (admitted strerror u.proc a) a.fd = true) :
      Connected u' u.server.clients.length c a.fd := by
    refine ⟨?_, ?_, hopened.trans hopen⟩
    · rw [hclients', List.getElem?_concat_length]
    · rw [hfds', ← hh.fds, List.getElem?_concat_length]
  have hclosed : ¬ (base a.fd ∨ ∃ i c, Connected u i c a.fd) := by
    rw [← hh.opens, hfresh]
    exact Bool.false_ne_true
  refine ⟨server, hadd, ⟨?_, hinv, hh.listening, ?_, ?_⟩, hg, ?_⟩
  · show u'.fds.length = u'.server.clients.length
    rw [hfds', hclients', List.length_append, List.length_append, hh.fds]
    rfl
  · intro fd
    by_cases hfd : (a.fd : Int) = fd
    · subst hfd
      constructor
      · exact fun hopen => Or.inr ⟨_, _, hself hopen⟩
      · rintro (hbase | ⟨j, x, hx⟩)
        · exact absurd (Or.inl hbase) hclosed
        · rcases hlast hx with hold | ⟨-, rfl, -⟩
          · exact absurd (Or.inr ⟨j, x, hold⟩) hclosed
          · exact hopened.symm.trans hx.opened
    · rw [isOpen_admitted hfd, hh.opens]
      refine or_congr_right ⟨?_, ?_⟩
      · rintro ⟨j, x, hx⟩
        exact ⟨j, x, hg.connected hx⟩
      · rintro ⟨j, x, hx⟩
        rcases hlast hx with hold | ⟨-, -, heq⟩
        · exact ⟨j, x, hold⟩
        · exact absurd heq.symm hfd
  · intro j x fd hx
    rcases hlast hx with hold | ⟨rfl, rfl, rfl⟩
    · refine ⟨(hh.apart j x fd hold).1, fun m y hy => ?_⟩
      rcases hlast hy with hy | ⟨-, -, rfl⟩
      · exact (hh.apart j x fd hold).2 m y hy
      · exact absurd (Or.inr ⟨j, x, hold⟩) hclosed
    · refine ⟨fun hbase => hclosed (Or.inl hbase), fun m y hy => ?_⟩
      rcases hlast hy with hy | ⟨rfl, -⟩
      · exact absurd (Or.inr ⟨m, y, hy⟩) hclosed
      · rfl
  · refine ⟨_, _, _, rfl, fun hwilling => ?_⟩
    rw [hh.fds]
    exact ⟨c, hself (Bool.and_eq_true_iff.mp hwilling).2, hnew⟩

theorem acceptLoop_ends (strerror : Int → String) {accepts : List accepted} (herrno : Retries errno)
    (hh : Held base u) : (acceptLoop strerror id errno u written accepts).Ends fun q =>
      Held base q.1 ∧ Grown u q.1 ∧ ∀ e ∈ q.2, Creates q.1 e := by
  induction accepts generalizing u written with
  | nil =>
    unfold acceptLoop
    rw [if_pos (show _ ∨ _ from herrno)]
    exact ⟨hh, .refl, by simp⟩
  | cons a accepts ih =>
    unfold acceptLoop
    by_cases hopen : isOpen u.proc a.fd = true
    · rw [if_pos hopen]
      trivial
    · rw [if_neg hopen]
      obtain ⟨server, hadd, hh₁, hg₁, hcreates⟩ := admit_spec strerror hh (Bool.not_eq_true _ ▸ hopen)
      refine Eq.mpr (congrArg (Outcome.Ends _) ((congrArg (· >>= _) hadd).trans rfl)) ?_
      apply (ih hh₁).bind
      rintro ⟨u₂, effects⟩ ⟨hh₂, hg₂, hall⟩
      refine ⟨hh₂, hg₁.trans hg₂, ?_⟩
      intro e he
      rcases List.mem_cons.mp he with rfl | he
      · exact hcreates.grown hg₂
      · exact hall e he

theorem Registered.grown (hr : Registered heard loop u) (hh : Held base u) (hh' : Held base u') (hg : Grown u u') :
    Registered heard loop u' := by
  refine ⟨hr.setsize, hr.length, hr.mirrors, by rw [hg.sfd]; exact hr.listener, ?_, ?_, hr.ticking⟩
  · intro fd ev hget hsome
    cases hr.owned fd ev hget hsome with
    | listener hfd hevent hread hdata => exact .listener (hfd.trans hg.sfd.symm) hevent hread hdata
    | client i c hconn hfd hevent hread hwrite hdata =>
      exact .client i c (hg.connected hconn) hfd hevent hread hwrite hdata
  · intro i c fd hc
    rcases hg.cases hh.fds hc with hold | ⟨hge, hnew⟩
    · exact hr.watched i c fd hold
    · refine Or.inr ⟨?_, hnew⟩
      unfold mask
      split
      · next ev hget =>
        by_contra hsome
        cases hr.owned fd ev hget hsome with
        | listener hfd => exact hh'.ne_listener hc (hfd.trans hg.sfd.symm)
        | client j x hconn =>
          have hji := (hh'.apart i c fd hc).2 j x (hg.connected hconn)
          have hlt := (List.getElem?_eq_some_iff.mp hconn.held).1
          omega
      · rfl

theorem Registered.creates {effect : Effect callback data Bool} (hr : Registered heard loop u) (hh : Held base u)
    (hcreates : Creates u effect) :
    ∃ loop' log, runEffect Event.epoll.build loop effect = .done (loop', log, [], []) ∧ Registered heard loop' u := by
  obtain ⟨willing, fd, i, rfl, hopen⟩ := hcreates
  have hsize : (loop.events.length : Int) = loop.setsize := by rw [hr.length, hr.setsize]; rfl
  have hevent : EV_RDABLE ≠ EV_NONE := by decide
  by_cases hout : willing = false ∨ fd < 1 ∨ fd ≥ loop.setsize
  · obtain ⟨registry, hdone, hevents, hset, htimers, hm⟩ := Event.create_event_refused hr.mirrors hsize hevent hout
      callback.client_readcb (some i)
    have hget (fd) : getEvent registry fd = getEvent loop.toevent_loop fd := Event.getEvent_congr hevents
    have hmask (fd) : mask registry fd = mask loop.toevent_loop fd := congrFun (Event.mask_congr hevents) fd
    have hact : Event.runAct Event.epoll.build loop.toevent_loop
        (.create willing fd EV_RDABLE .client_readcb (some i)) = .done (registry, []) :=
      (congrArg (· >>= _) hdone).trans rfl
    refine ⟨{ loop with toevent_loop := registry }, [], (congrArg (· >>= _) hact).trans rfl, ?_⟩
    refine ⟨hset.trans hr.setsize, ?_, hm, (hmask _).trans hr.listener, ?_, ?_, ?_⟩
    · show registry.events.length = 100
      rw [hevents]
      exact hr.length
    · exact fun fd ev hev => hr.owned fd ev ((hget fd).symm.trans hev)
    · intro j x fd hx
      rw [show mask ({ loop with toevent_loop := registry } : FullLoop callback data epoll).toevent_loop fd = _ from
        hmask fd]
      exact hr.watched j x fd hx
    · show Ticking registry.timers
      rw [htimers]
      exact hr.ticking
  · have hgranted : willing = true ∧ 1 ≤ fd ∧ fd < loop.setsize := by
      refine ⟨?_, by omega, by omega⟩
      cases willing with
      | false => exact absurd (Or.inl rfl) hout
      | true => rfl
    obtain ⟨rfl, hfd⟩ := hgranted
    obtain ⟨c, hc, hnew⟩ := hopen rfl
    obtain ⟨ev, hget⟩ := Event.getEvent_of_lt loop.toevent_loop (show 0 ≤ fd by omega) (by omega)
    obtain ⟨registry, hdone, he⟩ := Event.create_event_grants hr.mirrors hsize hfd hevent hget callback.client_readcb
      (some i)
    have hact : Event.runAct Event.epoll.build loop.toevent_loop (.create true fd EV_RDABLE .client_readcb (some i)) =
        .done (registry, [.created fd EV_RDABLE .client_readcb]) := (congrArg (· >>= _) hdone).trans rfl
    have hwatch : watch c.conn = EV_RDABLE := by
      unfold watch
      rw [hnew.eof, hnew.writing]
      rfl
    have hmask : ev.event ||| EV_RDABLE = watch c.conn := by
      rw [hwatch]
      rcases hr.watched i c fd hc with hsome | ⟨hnone, -⟩
      · rw [mask_of_event hget] at hsome
        rw [hsome, hwatch]
        rfl
      · rw [mask_of_event hget] at hnone
        rw [hnone]
        rfl
    refine ⟨{ loop with toevent_loop := registry }, [.created fd EV_RDABLE .client_readcb],
      (congrArg (· >>= _) hact).trans rfl, ?_⟩
    refine hr.entered he (hh.ne_listener hc) rfl (fun _ _ _ _ => Iff.rfl) ?_ ?_
    · refine fun _ => .client i c hc hfd.1 hmask (fun _ => rfl) (fun hwrite => ?_) rfl
      refine absurd ?_ hwrite
      show (ev.event ||| EV_RDABLE) &&& EV_WRABLE = 0
      rw [hmask, hwatch]
      rfl
    · intro j x hx
      obtain rfl := (hh.apart i c fd hc).2 j x hx
      obtain ⟨rfl, -⟩ := hx.unique hc
      exact Or.inl hmask

theorem Registered.creates_all {effects : List (Effect callback data Bool)} (hr : Registered heard loop u)
    (hh : Held base u) (hall : ∀ e ∈ effects, Creates u e) :
    ∃ loop' log, runEffects Event.epoll.build loop effects = .done (loop', log, [], []) ∧
      Registered heard loop' u := by
  induction effects generalizing loop with
  | nil => exact ⟨loop, [], rfl, hr⟩
  | cons e effects ih =>
    obtain ⟨loop₁, log₁, hone, hr₁⟩ := hr.creates hh (hall e List.mem_cons_self)
    obtain ⟨loop', log', hrest, hr'⟩ := ih hr₁ fun e he => hall e (List.mem_cons_of_mem _ he)
    refine ⟨loop', log₁ ++ log', ?_, hr'⟩
    unfold runEffects
    rw [hone, Outcome.done_bind]
    dsimp only
    rw [hrest]
    rfl

end Akio.Server
