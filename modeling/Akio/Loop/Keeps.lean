import Akio.Loop.Refine

/-!
# What every call of `process_events` keeps

A program shows that its callbacks keep a property of the loop and of its own state. Then a call of
`process_events` keeps it, and does not leave the arrays or call a callback that is not there.
-/

namespace Akio.Loop

open Event Timer

variable {C D P K R U A : Type} {b : Poller C D P K R} {prog : Program C D K U A}
  {can : Round A R → Prop} {J : FullLoop C D P → U → Prop} {loop loop' : FullLoop C D P} {u u' : U} {n : Int}

/-- `J` holds between any two callbacks. The loop has `n` entries, and `can` says what the system can answer in a call
of `process_events`. -/
structure Keeps (b : Poller C D P K R) (prog : Program C D K U A) (can : Round A R → Prop) (n : Int)
    (J : FullLoop C D P → U → Prop) : Prop where
  length : ∀ {loop u}, J loop u → loop.events.length = n
  heap : ∀ {loop u}, J loop u → ∃ v k f l, Good loop.timers v k f l
  polled : ∀ {loop u round} timeout, J loop u → can round →
    (b.poller_poll round.poll loop.toevent_loop timeout).Ends fun q =>
      J { loop with poller := q.1 } u ∧ ∀ active ∈ q.2, 0 ≤ active.fd ∧ active.fd < n
  event : ∀ {loop u fd ev} {d : Direction}, J loop u → getEvent loop.toevent_loop fd = .done ev →
    ev.event &&& d.mask ≠ 0 → ∃ cb data, ev.slot d = some cb ∧ ev.data = some data ∧
      ∀ round j, can round → (prog.event_callback cb fd data (round.answers j d) u).Ends fun q =>
        (runEffects b loop q.2).Ends fun r => J r.1 q.1
  timer : ∀ {loop u te}, J loop u → heap_top loop.timers = .done (some te) →
    ∀ tick, (fire b prog loop u te tick).Ends fun r => J r.1 r.2.1

theorem invoke_ends {active : ev_active} {d : Direction} {round : Round A R} (hk : Keeps b prog can n J)
    (hcan : can round) (hj : J loop u) (hfd : 0 ≤ active.fd ∧ active.fd < n) (j : Nat) :
    (invoke b prog (round.answers j d) loop u active d).Ends fun r => J r.1 r.2.1 := by
  obtain ⟨ev, hget⟩ := getEvent_of_lt loop.toevent_loop hfd.1 (by rw [hk.length hj]; exact hfd.2)
  unfold invoke
  rw [hget, Outcome.done_bind]
  by_cases hcall : ev.event &&& active.event &&& d.mask ≠ 0
  · obtain ⟨cb, data, hslot, hdata, hends⟩ := hk.event hj hget (both_mask_ne.mp hcall).1
    rw [if_pos hcall, hslot, hdata, Outcome.ofOption_some, Outcome.ofOption_some, Outcome.done_bind, Outcome.done_bind]
    apply (hends round j hcan).bind
    rintro ⟨u₁, effects⟩ hrun
    apply hrun.bind
    rintro ⟨loop₁, log, lists⟩ hj₁
    exact hj₁
  · rw [if_neg hcall]
    exact hj

theorem dispatch_ends {actives : List ev_active} {round : Round A R} (hk : Keeps b prog can n J) (hcan : can round)
    (hfds : ∀ active ∈ actives, 0 ≤ active.fd ∧ active.fd < n) (j : Nat) (hj : J loop u) :
    (dispatch b prog round.answers loop u j actives).Ends fun r => J r.1 r.2.1 := by
  induction actives generalizing loop u j with
  | nil => exact hj
  | cons active actives ih =>
    have hfd := hfds active List.mem_cons_self
    unfold dispatch
    apply (invoke_ends hk hcan hj hfd j).bind
    rintro ⟨loop₁, u₁, log₁⟩ hj₁
    apply (invoke_ends hk hcan hj₁ hfd j).bind
    rintro ⟨loop₂, u₂, log₂⟩ hj₂
    apply (ih (fun active hin => hfds active (List.mem_cons_of_mem _ hin)) (j + 1) hj₂).bind
    rintro ⟨loop₃, u₃, log₃⟩ hj₃
    exact hj₃

theorem processLoop_ends {ticks : List (Tick A)} {processed : Int} {fired : List Fired} {log : List (Entry C D)}
    (hk : Keeps b prog can n J) (hj : J loop u) :
    (processLoop b prog loop u processed fired log ticks).Ends fun r => J r.1 r.2.1 := by
  induction ticks generalizing loop u processed fired log with
  | nil =>
    obtain ⟨v, k, f, l, hg⟩ := hk.heap hj
    unfold processLoop
    rw [heap_top_spec hg.heapOf, Outcome.done_bind]
    by_cases hempty : k = 0
    · rw [if_pos hempty]
      exact hj
    · rw [if_neg hempty, if_pos (Option.some_ne_none _)]
      trivial
  | cons tick ticks ih =>
    obtain ⟨v, k, f, l, hg⟩ := hk.heap hj
    have htop := heap_top_spec hg.heapOf
    unfold processLoop
    rw [htop, Outcome.done_bind]
    by_cases hempty : k = 0
    · rw [if_pos hempty]
      exact hj
    · rw [if_neg hempty] at htop ⊢
      obtain ⟨a, ha⟩ := Store.live_iff.mp (hg.heapOf.live (Member.of_lt (show 0 < k by omega)))
      dsimp only
      rw [Store.read_of_cell ha, Outcome.done_bind]
      by_cases hearly : tick.now_msec < a.when_msec
      · rw [if_pos hearly]
        exact hj
      · rw [if_neg hearly]
        apply (hk.timer hj htop tick).bind
        rintro ⟨loop₁, u₁, one, log₁⟩ hj₁
        exact ih hj₁

theorem process_events_ends {round : Round A R} (hk : Keeps b prog can n J) (hcan : can round) (hj : J loop u) :
    (process_events b prog round loop u).Ends fun r => J r.1 r.2.1 := by
  obtain ⟨v, k, f, l, hg⟩ := hk.heap hj
  unfold process_events
  rw [get_shortest_msec_spec round.clock hg.heapOf, Outcome.done_bind]
  apply (hk.polled _ hj hcan).bind
  rintro ⟨poller, actives⟩ ⟨hj₁, hfds⟩
  apply (dispatch_ends hk hcan hfds 0 hj₁).bind
  rintro ⟨loop₂, u₂, log₂⟩ hj₂
  apply (processLoop_ends hk hj₂).bind
  rintro ⟨loop₃, u₃, processed, fired, log₃⟩ hj₃
  exact hj₃

/-! ## `stop` -/

theorem runEffects_stop {effects : List (Effect C D K)} {log : List (Entry C D)} {created deleted : List Nat}
    (hnone : .stop ∉ effects) (hdone : runEffects b loop effects = .done (loop', log, created, deleted)) :
    loop'.stop = loop.stop := by
  induction effects generalizing loop log created deleted with
  | nil =>
    cases hdone
    rfl
  | cons effect effects ih =>
    obtain ⟨⟨loop₁, log₁, created₁, deleted₁⟩, hone, hdone⟩ := Outcome.bind_eq_done.mp hdone
    obtain ⟨⟨loop₂, log₂, created₂, deleted₂⟩, hrest, hpure⟩ := Outcome.bind_eq_done.mp hdone
    cases hpure
    rw [ih (fun hin => hnone (List.mem_cons_of_mem _ hin)) hrest]
    cases effect with
    | event act =>
      obtain ⟨⟨registry, log₁'⟩, -, hpure⟩ := Outcome.bind_eq_done.mp hone
      cases hpure
      rfl
    | timer act =>
      obtain ⟨⟨timers, created₁', deleted₁'⟩, -, hpure⟩ := Outcome.bind_eq_done.mp hone
      cases hpure
      rfl
    | stop => exact absurd List.mem_cons_self hnone

theorem startLoop_running {rounds : List (Round A R)} {passes : List (Pass C D)} (hk : Keeps b prog can n J)
    (hstop : ∀ {loop u}, J loop u → loop.stop = false) (hcan : ∀ round ∈ rounds, can round) (hj : J loop u) :
    startLoop b prog loop u passes rounds = .running := by
  induction rounds generalizing loop u passes with
  | nil =>
    unfold startLoop
    rw [hstop hj]
    rfl
  | cons round rounds ih =>
    unfold startLoop
    rw [hstop hj, if_neg Bool.false_ne_true]
    have hends := process_events_ends hk (hcan round List.mem_cons_self) hj
    cases hpass : process_events b prog round loop u with
    | fault =>
      rw [hpass] at hends
      exact hends.elim
    | running => rfl
    | done r =>
      obtain ⟨loop₁, u₁, pass⟩ := r
      rw [hpass] at hends
      exact ih (fun round hin => hcan round (List.mem_cons_of_mem _ hin)) hends

/-! ## Runs -/

/-- A call of `process_events` that returned, for answers that the system can give. -/
def Served (b : Poller C D P K R) (prog : Program C D K U A) (can : Round A R → Prop) (s : FullLoop C D P × U)
    (round : Round A R) (s' : FullLoop C D P × U) : Prop :=
  can round ∧ ∃ pass, process_events b prog round s.1 s.2 = .done (s'.1, s'.2, pass)

theorem Served.kept {s s' : FullLoop C D P × U} {round : Round A R} (hk : Keeps b prog can n J) (hj : J s.1 s.2)
    (hserved : Served b prog can s round s') : J s'.1 s'.2 := by
  obtain ⟨hcan, pass, hdone⟩ := hserved
  exact (Outcome.ends_iff.mp (process_events_ends hk hcan hj)).2 _ hdone

theorem Keeps.of_run {s s' : FullLoop C D P × U} {rounds : List (Round A R)} (hk : Keeps b prog can n J)
    (hj : J s.1 s.2) (hrun : Run (Served b prog can) s rounds s') : J s'.1 s'.2 :=
  hrun.invariant (P := fun s => J s.1 s.2) (fun _ _ _ hj hserved => hserved.kept hk hj) hj

end Akio.Loop
