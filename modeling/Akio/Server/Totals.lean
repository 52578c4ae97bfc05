import Akio.Server.Runs
import Mathlib.Algebra.BigOperators.Group.List.Basic
import Mathlib.Data.BitVec

/-!
# What `print_info` shows

A call that fails, or finds the end of the file, is not counted: what it moved before is missing in the totals.
-/

namespace Akio.Server

open Buffer Socket Loop Demo
open Event (epoll)

variable {strerror gai_strerror : Int → String} {loop : FullLoop callback data epoll} {u u' : state}
  {s₀ : FullLoop callback data epoll × state} {g : statics} {conn : connection} {o : List Nat} {rest : List byte}
  {base : Int → Prop} {i : Nat} {c c' : client} {fd : Int} {kind : Demo.Callback} {log : List Entry} {ans : answer}

/-- The bytes that the call moved are counted, or there are none. -/
def Counts : Entry → Prop
  | .recv rv bytes => 0 < rv ∨ bytes = []
  | .send rv bytes => 0 ≤ rv ∨ bytes = []
  | _ => True

instance : DecidablePred Counts
  | .recv rv bytes => inferInstanceAs (Decidable (0 < rv ∨ bytes = []))
  | .send rv bytes => inferInstanceAs (Decidable (0 ≤ rv ∨ bytes = []))
  | .charge .. | .create_event _ | .delete_event _ | .shutdown _ | .close => inferInstanceAs (Decidable True)

/-- The totals took in what was moved. -/
structure Tallied (g g' : statics) (log : List Entry) : Prop where
  recv : g'.recv_total = g.recv_total + BitVec.ofNat 64 (log.flatMap Entry.received).length
  send : g'.send_total = g.send_total + BitVec.ofNat 64 (log.flatMap Entry.sent).length

/-! ## The callbacks of a client -/

theorem client_writecb_tallied (hh : Holds g.pool conn.chain o rest) (outputs : List Output) :
    (client_writecb g conn outputs).Ends fun r => (∀ e ∈ r.2.2, Counts e) → Tallied g r.1 r.2.2 := by
  unfold client_writecb
  apply (buffer_chain_send_ends hh outputs).bind
  rintro ⟨pool', chain', rv, bytes⟩ ⟨-, hsent, -, -⟩
  dsimp only
  split_ifs with hfail
  · intro hcounts
    obtain rfl : bytes = [] := (hcounts _ List.mem_cons_self).resolve_left (by omega)
    exact ⟨by simp, by simp⟩
  all_goals
    rw [hsent]
    exact fun _ => ⟨by simp, by simp⟩

theorem client_readcb_tallied (hh : Holds g.pool conn.chain o rest) (inputs : List Input) (outputs : List Output) :
    (client_readcb g conn inputs outputs).Ends fun r => (∀ e ∈ r.2.2, Counts e) → Tallied g r.1 r.2.2 := by
  unfold client_readcb
  apply (buffer_chain_recv_ends hh inputs).bind
  rintro ⟨pool₁, chain₁, rv, bytes⟩ ⟨⟨hh₁, hrecv, -, -⟩, -⟩
  dsimp only
  split_ifs with hclose hzero hwriting
  · intro hcounts
    obtain rfl : bytes = [] := (hcounts (.recv rv bytes) (by simp)).resolve_left (by omega)
    exact ⟨by simp, by simp⟩
  · intro hcounts
    obtain rfl : bytes = [] := (hcounts (.recv rv bytes) (by simp)).resolve_left (by omega)
    exact ⟨by simp, by simp⟩
  · rw [hrecv]
    exact fun _ => ⟨by simp, by simp⟩
  apply (buffer_chain_send_ends hh₁ outputs).bind
  rintro ⟨pool₂, chain₂, rv', bytes'⟩ ⟨-, hsent, -, -⟩
  rw [hrecv]
  dsimp only
  split_ifs with hfail hmore
  · intro hcounts
    obtain rfl : bytes' = [] := (hcounts (.send rv' bytes') (by simp)).resolve_left (by omega)
    exact ⟨by simp, by simp⟩
  all_goals
    rw [hsent]
    exact fun _ => ⟨by simp, by simp⟩

theorem runCallback_tallied (hh : Holds g.pool conn.chain o rest) (kind : Demo.Callback) :
    (runCallback g conn kind).Ends fun r => (∀ e ∈ r.2.2, Counts e) → Tallied g r.1 r.2.2 := by
  cases kind with
  | read inputs outputs => exact client_readcb_tallied hh inputs outputs
  | write outputs => exact client_writecb_tallied hh outputs

theorem Turn.tallied (ht : Turn u i c fd ans kind u' c' log) (hh : Held base u) (hc : Connected u i c fd)
    (hcounts : ∀ e ∈ log, Counts e) : Tallied u.server.statics u'.server.statics log := by
  obtain ⟨f, cs, hi⟩ := hh.chains
  have hconn : (worldOf u.server).conns[i]? = some (connOf c) := by
    unfold worldOf
    rw [List.getElem?_map, hc.held]
    rfl
  obtain ⟨rest, hholds, -⟩ := hi.holds hconn
  have hdone := ht.done
  unfold Demo.invoke at hdone
  rw [hc.held, Outcome.ofOption_some, Outcome.done_bind] at hdone
  obtain ⟨⟨statics, conn, log⟩, hrun, hpure⟩ := Outcome.bind_eq_done.mp hdone
  obtain ⟨hserver, rfl⟩ := Prod.mk.inj (Outcome.done.inj hpure)
  rw [← hserver]
  exact (Outcome.ends_iff.mp (runCallback_tallied hholds kind)).2 _ hrun hcounts

/-! ## Runs -/

def report.totals (r : report) : BitVec 64 × BitVec 64 := (r.recv_total, r.send_total)

/-- Each report has other totals than the one before it, and shows by how much they grew. -/
def Continues : BitVec 64 × BitVec 64 → List report → Prop
  | _, [] => True
  | before, r :: printed => r.totals ≠ before ∧ r.r = thousandths (megabytes (r.recv_total - before.1)) ∧
    r.s = thousandths (megabytes (r.send_total - before.2)) ∧ Continues r.totals printed

/-- The totals of the last report, if there is one. -/
def latest (before : BitVec 64 × BitVec 64) (printed : List report) : BitVec 64 × BitVec 64 :=
  printed.foldl (fun _ r => r.totals) before

theorem latest_snoc {before : BitVec 64 × BitVec 64} {printed : List report} {r : report} :
    latest before (printed ++ [r]) = r.totals := by
  unfold latest
  rw [List.foldl_append]
  rfl

theorem Continues.snoc {before : BitVec 64 × BitVec 64} {printed : List report} {r : report}
    (h : Continues before printed) (hr : Continues (latest before printed) [r]) :
    Continues before (printed ++ [r]) := by
  induction printed generalizing before with
  | nil => exact hr
  | cons first printed ih => exact ⟨h.1, h.2.1, h.2.2.1, ih h.2.2.2 hr⟩

/-- The totals are of all that came in and went out, and `print_info` keeps those that it printed last. -/
structure Totals (u : state) : Prop where
  recv : u.server.statics.recv_total = BitVec.ofNat 64 (u.server.clients.map (·.received.length)).sum
  send : u.server.statics.send_total = BitVec.ofNat 64 (u.server.clients.map (·.sent.length)).sum
  prev : latest (0, 0) u.printed = (u.prev_recv, u.prev_send)
  continues : Continues (0, 0) u.printed

/-- All that the call moves is counted. -/
def counting (cb : callback) (_ : Int) (data : data) (ans : answer) (u : state) : Bool :=
  match data, kindOf ans cb with
  | some i, some kind =>
    match Demo.invoke u.server i kind with
    | .done (_, log) => decide (∀ e ∈ log, Counts e)
    | _ => true
  | _, _ => true

theorem sum_set {α : Type} (f : α → Nat) {l : List α} {i : Nat} {a : α} (h : l[i]? = some a) (b : α) :
    ((l.set i b).map f).sum + f a = (l.map f).sum + f b := by
  induction l generalizing i with
  | nil => simp at h
  | cons x l ih =>
    cases i with
    | zero =>
      obtain rfl := Option.some.inj h
      rw [List.set_cons_zero, List.map_cons, List.map_cons, List.sum_cons, List.sum_cons]
      omega
    | succ i =>
      have hrest := ih (i := i) h
      rw [List.set_cons_succ, List.map_cons, List.map_cons, List.sum_cons, List.sum_cons]
      omega

theorem Totals.grown (hq : Totals u) (hg : Grown u u') : Totals u' := by
  obtain ⟨more, hclients, hnew⟩ := hg.clients
  have hrecv : (more.map (·.received.length)).sum = 0 :=
    List.sum_eq_zero (by simpa using fun c hc => congrArg List.length (hnew c hc).received)
  have hsend : (more.map (·.sent.length)).sum = 0 :=
    List.sum_eq_zero (by simpa using fun c hc => congrArg List.length (hnew c hc).sent)
  have hfigures := hg.figures
  simp only [figures, Prod.mk.injEq] at hfigures
  obtain ⟨hr, hs, hpr, hps, hprinted⟩ := hfigures
  refine ⟨?_, ?_, by rw [hprinted, hpr, hps, hq.prev], by rw [hprinted]; exact hq.continues⟩
  · rw [hr, hq.recv, hclients, List.map_append, List.sum_append, hrecv, Nat.add_zero]
  · rw [hs, hq.send, hclients, List.map_append, List.sum_append, hsend, Nat.add_zero]

theorem Totals.turned (hq : Totals u) (ht : Turn u i c fd ans kind u' c' log) (hc : Connected u i c fd)
    (htallied : Tallied u.server.statics u'.server.statics log) : Totals u' := by
  have hrest := ht.rest
  have hrecv := sum_set (fun c : client => c.received.length) hc.held c'
  have hsend := sum_set (fun c : client => c.sent.length) hc.held c'
  rw [← ht.invoked.clients] at hrecv hsend
  rw [ht.received, List.length_append] at hrecv
  rw [ht.sent, List.length_append] at hsend
  refine ⟨?_, ?_, ?_, ?_⟩
  · rw [htallied.recv, hq.recv, ← BitVec.ofNat_add]
    exact congrArg _ (by omega)
  · rw [htallied.send, hq.send, ← BitVec.ofNat_add]
    exact congrArg _ (by omega)
  · rw [hrest]
    exact hq.prev
  · rw [hrest]
    exact hq.continues

theorem megabytes_eq_zero {x y : BitVec 64} : megabytes (x - y) = 0 ↔ x = y := by
  refine Iff.trans ?_ (sub_eq_zero (a := x))
  unfold megabytes
  rw [Rounding.rounded_eq_zero (by omega), Rounding.rounded_eq_zero (by omega), div_eq_zero_iff, or_iff_left (by simp),
    Rounding.rounded_eq_zero (by omega), div_eq_zero_iff, or_iff_left (by simp), Rounding.rounded_eq_zero (by omega),
    Int.cast_eq_zero, ← BitVec.toInt_zero (w := 64), BitVec.toInt_inj]
  exact Iff.rfl

theorem print_info_spec (hq : Totals u) : Totals (print_info u).1 ∧
    latest (0, 0) (print_info u).1.printed = (u.server.statics.recv_total, u.server.statics.send_total) := by
  have hprint : latest (0, 0) (print_info u).1.printed = (u.server.statics.recv_total, u.server.statics.send_total) ∧
      Continues (0, 0) (print_info u).1.printed := by
    unfold print_info
    dsimp only
    split_ifs with hnew
    · refine ⟨latest_snoc, hq.continues.snoc ?_⟩
      rw [hq.prev]
      refine ⟨fun hsame => ?_, rfl, rfl, trivial⟩
      obtain ⟨hrecv, hsend⟩ := Prod.mk.inj hsame
      exact hnew.elim (fun h => h (megabytes_eq_zero.mpr hrecv)) fun h => h (megabytes_eq_zero.mpr hsend)
    · obtain ⟨hrecv, hsend⟩ := not_or.mp hnew
      rw [megabytes_eq_zero.mp (not_not.mp hrecv), megabytes_eq_zero.mp (not_not.mp hsend)]
      exact ⟨hq.prev, hq.continues⟩
  exact ⟨⟨hq.recv, hq.send, hprint.1, hprint.2⟩, hprint.1⟩

theorem Reached.totals (h : Reached strerror gai_strerror ((program strerror id).only counting) s₀ loop u) :
    Totals u := by
  refine h.also (Q := Totals) ?_ ?_ fun hq => (print_info_spec hq).1
  · obtain ⟨s, proc, hmain⟩ := h.started
    obtain ⟨registry, timers, hs⟩ := main_started hmain
    obtain ⟨pool, -, hserver⟩ := hs.chains
    obtain ⟨hprev_recv, hprev_send, hprinted⟩ := hs.unprinted
    refine ⟨?_, ?_, ?_, ?_⟩
    · rw [hserver]
      rfl
    · rw [hserver]
      rfl
    · rw [hprinted, hprev_recv, hprev_send]
      rfl
    · rw [hprinted]
      trivial
  · intro u fd cb data ans u' hh hh' hq hok hdid
    cases hdid with
    | grown hg => exact hq.grown hg
    | turned i c c' kind log hdata hkind hc ht hdue hwrite =>
      subst hdata
      unfold counting at hok
      simp only [hkind, ht.done, decide_eq_true_eq] at hok
      exact hq.turned ht hc (ht.tallied hh hc hok)

/-- Whenever `print_info` ran, its last report has all the bytes that ever came in and went out, and each report shows
what is new since the one before it. -/
theorem printed_of_reached (h : Reached strerror gai_strerror ((program strerror id).only counting) s₀ loop u) :
    latest (0, 0) (print_info u).1.printed =
      (BitVec.ofNat 64 (u.server.clients.map (·.received.length)).sum,
        BitVec.ofNat 64 (u.server.clients.map (·.sent.length)).sum) ∧
    Continues (0, 0) (print_info u).1.printed := by
  have hq := h.totals
  obtain ⟨hq', hlatest⟩ := print_info_spec hq
  rw [← hq.recv, ← hq.send]
  exact ⟨hlatest, hq'.continues⟩

/-- Three bytes came in, and two of them went out. -/
theorem printed_sample :
    ∃ u : state, (u.server.clients.map (·.received.length)).sum = 3 ∧ (u.server.clients.map (·.sent.length)).sum = 2 ∧
      latest (0, 0) (print_info u).1.printed =
        (BitVec.ofNat 64 (u.server.clients.map (·.received.length)).sum,
          BitVec.ofNat 64 (u.server.clients.map (·.sent.length)).sum) ∧
      Continues (0, 0) (print_info u).1.printed := by
  have hfacts : (([([3], [], []), ([4], [.bytes 1 [2, 3]], [.takes 0])].foldlM
      (serve ((program (fun _ => "") id).only counting)) plainStart).map fun s =>
        decide ((s.2.server.clients.map (·.received.length)).sum = 3 ∧
          (s.2.server.clients.map (·.sent.length)).sum = 2)) = some true := by decide +kernel
  obtain ⟨s, hs, hfacts⟩ := Option.map_eq_some_iff.mp hfacts
  obtain ⟨hreceived, hsent⟩ := of_decide_eq_true hfacts
  exact ⟨s.2, hreceived, hsent, printed_of_reached (reached_of_serve hs)⟩

end Akio.Server
