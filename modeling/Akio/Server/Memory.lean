import Akio.Server.Pending

/-!
# What is never freed

The server frees no connection. A closed one keeps its buffers, and the bytes that it could not send.
-/

namespace Akio.Server

open Buffer Socket Loop Demo
open Event (epoll epoll_wait mask)

variable {strerror gai_strerror : Int → String} {base : Int → Prop} {loop loop' : FullLoop callback data epoll}
  {u u' : state} {s₀ : FullLoop callback data epoll × state} {i : Nat} {c : client}

theorem out_of_inv {w : world} {f : List Nat} {cs : List (conn × List Nat)} (hi : Inv w [] f cs) :
    w.conns.length + w.pool.size ≤ w.pool.allocs := by
  have hout : cs.length ≤ (cs.map Prod.snd).flatten.length := by
    have hcarries := hi.carries
    clear hi
    induction cs with
    | nil => exact Nat.le_refl 0
    | cons x cs ih =>
      obtain ⟨ms, w, hbuffers, -⟩ := hcarries x List.mem_cons_self
      have hrest := ih fun y hy => hcarries y (List.mem_cons_of_mem x hy)
      rw [List.map_cons, List.flatten_cons, List.length_append, hbuffers, List.length_append]
      simp only [List.length_cons, List.length_nil]
      omega
  have hconns : w.conns.length = cs.length := by rw [hi.conns, List.length_map]
  have hsize := hi.pool.size
  have hallocs := hi.pool.allocs
  rw [List.append_nil] at hallocs
  omega

theorem Did.closed {fd : Int} {cb : callback} {data : Server.data} {ans : answer} (hdid : Did u fd cb data ans u')
    (hc : u.server.clients[i]? = some c) (hclosed : c.opened = false) : u'.server.clients[i]? = some c := by
  cases hdid with
  | grown hg =>
    obtain ⟨more, hclients, -⟩ := hg.clients
    rw [hclients, List.getElem?_append_left (List.getElem?_eq_some_iff.mp hc).1]
    exact hc
  | turned j x x' kind log hdata hkind hx ht hdue hwrite =>
    have hne : j ≠ i := by
      rintro rfl
      obtain rfl := Option.some.inj (hx.held.symm.trans hc)
      exact absurd hx.opened (by simp [hclosed])
    rw [ht.invoked.clients, List.getElem?_set_ne hne]
    exact hc

/-- As many buffers as there ever were connections are not in the pool. A closed connection stays as it is and holds
what it did not send. -/
theorem memory_of_reached (h : Reached strerror gai_strerror (program strerror id) s₀ loop u) :
    u.server.clients.length + u.server.statics.pool.size ≤ u.server.statics.pool.allocs ∧
    ∀ (i : Nat) c, u.server.clients[i]? = some c → c.opened = false → ∀ rounds loop' u',
      Run (Loop.Served Event.epoll.build (program strerror id) Granted) (loop, u) rounds (loop', u') →
        u'.server.clients[i]? = some c ∧ c.sent ++ pendingOf u' c = c.received := by
  constructor
  · obtain ⟨f, cs, hi⟩ := h.up.held.chains
    have hout := out_of_inv hi
    rw [show (worldOf u.server).conns.length = _ from List.length_map _] at hout
    exact hout
  · intro i c hc hclosed rounds loop' u' hrun
    have hkeeps : Keeps Event.epoll.build ((program strerror id).only fun _ _ _ _ _ => true) Granted 100
        fun loop u => Up (fun fd => isOpen s₀.2.proc fd = true) (mask s₀.1.toevent_loop s₀.2.sfd) loop u ∧
          u.server.clients[i]? = some c :=
      keeps_also (fun _ _ hc _ hdid => hdid.closed hc hclosed) id
    obtain ⟨hup, hc'⟩ := hkeeps.of_run (s := (loop, u)) ⟨h.up, hc⟩ hrun
    obtain ⟨f, cs, hi⟩ := hup.held.chains
    exact ⟨hc', echo_of_inv hi hc'⟩

/-- A client sent three bytes. Writing them back failed, and another client got its descriptor. -/
theorem memory_sample :
    ∃ (u u' : state) (c : client), c.opened = false ∧ c.sent = [] ∧ c.received = [1, 2, 3] ∧
      u.server.clients.length + u.server.statics.pool.size ≤ u.server.statics.pool.allocs ∧
      u'.server.clients.length = 2 ∧ u'.server.clients[0]? = some c ∧ c.sent ++ pendingOf u' c = c.received := by
  have hfacts : (([([3], [], []), ([4], [.bytes 1 [2, 3]], [.eagain]), ([4], [.eagain], [.error])].foldlM
      (serve (program (fun _ => "") id)) plainStart).bind fun s =>
        s.2.server.clients[0]?.bind fun c => (serve (program (fun _ => "") id) s ([3], [], [])).map fun s' =>
          decide (c.opened = false ∧ c.sent = [] ∧ c.received = [1, 2, 3] ∧ s'.2.server.clients.length = 2)) =
      some true := by decide +kernel
  obtain ⟨s, hs, hfacts⟩ := Option.bind_eq_some_iff.mp hfacts
  obtain ⟨c, hc, hfacts⟩ := Option.bind_eq_some_iff.mp hfacts
  obtain ⟨s', hs', hfacts⟩ := Option.map_eq_some_iff.mp hfacts
  obtain ⟨hclosed, hsent, hreceived, htwo⟩ := of_decide_eq_true hfacts
  obtain ⟨hout, hstays⟩ := memory_of_reached (reached_of_serve hs)
  exact ⟨s.2, s'.2, c, hclosed, hsent, hreceived, hout, htwo,
    hstays 0 c hc hclosed _ s'.1 s'.2 (Run.nil.snoc (served_of_serve hs'))⟩

end Akio.Server
