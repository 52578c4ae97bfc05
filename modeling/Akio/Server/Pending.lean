import Akio.Server.Runs

/-!
# Nothing is stranded

While no callback finds the end of the file after bytes, the kernel is asked for room to write exactly where a
connection holds something.
-/

namespace Akio.Server

open Buffer Socket Loop Demo
open Event (EV_NONE EV_RDABLE EV_WRABLE EPOLLIN EPOLLOUT epoll mask)

variable {strerror gai_strerror : Int → String} {base : Int → Prop} {loop : FullLoop callback data epoll}
  {u u' : state} {s₀ : FullLoop callback data epoll × state} {i : Nat} {c c' : client} {fd : Int}
  {kind : Demo.Callback} {log : List Entry} {ans : answer}

/-- What a connection holds. -/
abbrev pendingOf (u : state) (c : client) : List byte := pending u.server.statics.pool c.conn.chain

/-- The call does not find the end of the file after bytes, and what it takes in fits in memory. -/
def clean (cb : callback) (_ : Int) (data : data) (ans : answer) (u : state) : Bool :=
  match data, kindOf ans cb with
  | some i, some kind =>
    match u.server.clients[i]?, Demo.invoke u.server i kind with
    | some c, .done (_, log) => decide (kind.Clean u.server.statics c.conn) && decide (Fits u.server c log)
    | _, _ => true
  | _, _ => true

/-- `total` counts what an open connection holds, and `writing` is set where that is something. -/
def Counted (u : state) : Prop :=
  ∀ i c fd, Connected u i c fd →
    c.conn.total.toNat = (pendingOf u c).length ∧ (c.conn.writing = true ↔ pendingOf u c ≠ [])

theorem echo_of_held (hh : Held base u) (hc : Connected u i c fd) : c.sent ++ pendingOf u c = c.received := by
  obtain ⟨f, cs, hi⟩ := hh.chains
  exact echo_of_inv hi hc.held

theorem pending_same (hh : Held base u) (hh' : Held base u') (hc : Connected u i c fd) (hc' : Connected u' i c fd) :
    pendingOf u' c = pendingOf u c :=
  List.append_cancel_left ((echo_of_held hh' hc').trans (echo_of_held hh hc).symm)

theorem Counted.grown (hq : Counted u) (hh : Held base u) (hh' : Held base u') (hg : Grown u u') : Counted u' := by
  intro i c fd hc
  rcases hg.cases hh.fds hc with hold | ⟨-, hnew⟩
  · rw [pending_same hh hh' hold hc]
    exact hq i c fd hold
  · have hecho := echo_of_held hh' hc
    rw [hnew.sent, hnew.received, List.nil_append] at hecho
    rw [hecho, hnew.total, hnew.writing]
    exact ⟨rfl, by simp⟩

theorem Counted.turned (hq : Counted u) (hh : Held base u) (hh' : Held base u') (hc : Connected u i c fd)
    (ht : Turn u i c fd ans kind u' c' log) (hclean : kind.Clean u.server.statics c.conn) (hfits : Fits u.server c log)
    (hwrite : ∀ outputs, kind = .write outputs → c.conn.writing = true) : Counted u' := by
  intro j x fd' hx
  rcases (ht.connected hc).mp hx with ⟨hji, hold⟩ | ⟨rfl, rfl, rfl, hopen⟩
  · rw [pending_same hh hh' hold hx]
    exact hq j x fd' hold
  · obtain ⟨htotal, hwriting⟩ := hq j c fd' hc
    have hb := (ht.invoked.balanced htotal hfits).mpr hclean
    refine ⟨hb.total hopen, ht.turned.writing_iff hb hopen htotal ?_ hwriting hwrite⟩
    have hecho := echo_of_held hh' hx
    rw [ht.sent, ht.received, ← echo_of_held hh hc, List.append_assoc, List.append_assoc] at hecho
    exact (List.append_cancel_left hecho).symm

theorem Reached.counted (h : Reached strerror gai_strerror ((program strerror id).only clean) s₀ loop u) :
    Counted u := by
  apply h.also
  · obtain ⟨s, proc, hmain⟩ := h.started
    obtain ⟨registry, timers, hs⟩ := main_started hmain
    exact fun i c fd hc => absurd hc hs.not_connected
  · intro u fd cb data ans u' hh hh' hq hok hdid
    cases hdid with
    | grown hg => exact hq.grown hh hh' hg
    | turned i c c' kind log hdata hkind hc ht hdue hwrite =>
      subst hdata
      unfold clean at hok
      simp only [hkind, hc.held, ht.done, Bool.and_eq_true, decide_eq_true_eq] at hok
      exact hq.turned hh hh' hc ht hok.1 hok.2 hwrite
  · exact fun hq i c fd hc => hq i c fd ⟨hc.held, hc.descriptor, hc.opened⟩

/-- Every open connection sends the bytes it received in order and holds the rest. The kernel is asked whether there
is room to write if and only if it holds something, and whether there is something to read until the input ended. -/
theorem nothing_stranded_of_reached
    (h : Reached strerror gai_strerror ((program strerror id).only clean) s₀ loop u) (hc : Connected u i c fd) :
    c.sent ++ pendingOf u c = c.received ∧
    ((∃ ee ∈ loop.poller.interest fd, ee.events &&& EPOLLOUT ≠ 0) ↔ pendingOf u c ≠ []) ∧
    (c.conn.eof = false → (∃ ee ∈ loop.poller.interest fd, ee.events &&& EPOLLIN ≠ 0) ∨ c.received = []) := by
  have hup := h.of_only.up
  have hecho := echo_of_held hup.held hc
  obtain ⟨-, hwriting⟩ := h.counted i c fd hc
  refine ⟨hecho, ?_⟩
  rcases hup.registered.watched i c fd hc with hmask | ⟨hnone, hnew⟩
  · have hw := watches_of_mask hup.registered.mirrors hmask
    rw [← hwriting]
    constructor
    · constructor
      · rintro ⟨ee, hee, hout⟩
        exact (hw.write ee hee).mp hout
      · intro hset
        obtain ⟨ee, hee⟩ := Option.isSome_iff_exists.mp (hw.present.mpr (Or.inr hset))
        exact ⟨ee, hee, (hw.write ee hee).mpr hset⟩
    · intro heof
      obtain ⟨ee, hee⟩ := Option.isSome_iff_exists.mp (hw.present.mpr (Or.inl heof))
      exact Or.inl ⟨ee, hee, (hw.read ee hee).mpr heof⟩
  · rw [hnew.received] at hecho
    have hinterest : loop.poller.interest fd = none := by
      rw [← Option.not_isSome_iff_eq_none, hup.registered.mirrors.present fd]
      exact not_not.mpr hnone
    rw [hinterest, (List.append_eq_nil_iff.mp hecho).2]
    exact ⟨by simp, fun _ => Or.inr hnew.received⟩

/-- The first two rounds of the sample run. There is no room for the three bytes yet. -/
theorem nothing_stranded_sample :
    ∃ (loop : FullLoop callback data epoll) (u : state) (c : client), c.sent = [] ∧ c.received = [1, 2, 3] ∧
      c.sent ++ pendingOf u c = c.received ∧
      ((∃ ee ∈ loop.poller.interest 4, ee.events &&& EPOLLOUT ≠ 0) ↔ pendingOf u c ≠ []) ∧
      (c.conn.eof = false → (∃ ee ∈ loop.poller.interest 4, ee.events &&& EPOLLIN ≠ 0) ∨ c.received = []) := by
  have hfacts : (((plainRounds.take 2).foldlM (serve ((program (fun _ => "") id).only clean)) plainStart).bind
      fun s => s.2.server.clients[0]?.map fun c => decide (s.2.fds[0]? = some 4 ∧ c.opened = true ∧ c.sent = [] ∧
        c.received = [1, 2, 3])) = some true := by decide +kernel
  obtain ⟨s, hs, hfacts⟩ := Option.bind_eq_some_iff.mp hfacts
  obtain ⟨c, hc, hfacts⟩ := Option.map_eq_some_iff.mp hfacts
  obtain ⟨hfd, hopened, hsent, hreceived⟩ := of_decide_eq_true hfacts
  exact ⟨s.1, s.2, c, hsent, hreceived, nothing_stranded_of_reached (reached_of_serve hs) ⟨hc, hfd, hopened⟩⟩

end Akio.Server
