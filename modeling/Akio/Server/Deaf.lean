import Akio.Loop.Runs
import Akio.Server.Runs

/-!
# The server with select

`server_accept_cb` registers a client that it has closed because a call on its options failed. With epoll the kernel
refuses that, and with select it does not. Then `select` fails for as long as the descriptor is not open.
-/

namespace Akio.Server

open Buffer Socket Loop Demo
open Event (EV_RDABLE select SelectCall Direction Entry)

variable {strerror : Int → String} {k : Bool → Unit} {loop loop' : FullLoop callback data select} {u u' : state}
  {log log' : List (Entry callback data)}

/-- Only the timers changed, and the variables of `print_info`. -/
structure Idle (loop : FullLoop callback data select) (u : state) (loop' : FullLoop callback data select)
    (u' : state) : Prop where
  loop : ∃ timers, loop' = { loop with timers }
  proc : u'.proc = u.proc
  server : u'.server = u.server
  fds : u'.fds = u.fds

theorem Idle.refl : Idle loop u loop u := ⟨⟨loop.timers, rfl⟩, rfl, rfl, rfl⟩

theorem Idle.trans {loop₁ : FullLoop callback data select} {u₁ : state} (h : Idle loop u loop₁ u₁)
    (h' : Idle loop₁ u₁ loop' u') : Idle loop u loop' u' := by
  obtain ⟨⟨timers, rfl⟩, hproc, hserver, hfds⟩ := h
  obtain ⟨⟨timers', rfl⟩, hproc', hserver', hfds'⟩ := h'
  exact ⟨⟨timers', rfl⟩, hproc'.trans hproc, hserver'.trans hserver, hfds'.trans hfds⟩

end Akio.Server
